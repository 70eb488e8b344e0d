import Cppio.DataQueueWakeup

/-!
# A writer blocked on a full queue

The wait of `write` has a predicate, `availableWriteSize() > 0`, and the flag is looked at only after the wait.  So
when the connection is lost, `setConnectionFlag(false)` wakes the writer, which finds the buffer still full and falls
asleep again; and when it does leave the wait there is room, so the test of the flag after the wait is never true.

A writer that has fallen asleep in `write` therefore never reports a lost connection (`firstReturn_of_afterWait`), and
while nobody reads it does not leave `write` at all (`blocked_of_run`).
-/

namespace Cppio

namespace DataQueue

open Monitor

variable {τ : Type} {N : Nat}

/-- The queue of a run in which any thread may make any call. -/
abbrev anyCall : Call → Bool := fun _ => true

/-- The thread is in the wait of `write`: asleep or woken, or testing the predicate of the wait. -/
def WaitsForRoom (s : State τ N) (t : τ) (buffer : List Byte) : Prop :=
  s.pc t = .busy (.write buffer) .relock ∨ s.pc t = .busy (.write buffer) .predicate ∨
    s.pc t = .busy (.write buffer) .wait

/-- Where a `write` can be once it has been in its wait. -/
def afterWait : Stage → Bool
  | .relock | .predicate | .wait | .recheck | .copy | .notifyReaders _ | .leave (.count _) => true
  | _ => false

variable [DecidableEq τ]

/-- The first call of a thread that returns in a trace, with its result. -/
def firstReturn (t : τ) (tr : Trace τ) : Option (Call × Result) :=
  tr.findSome? fun x =>
    if x.1 = t then
      match x.2 with
      | .event (.ret c r) => some (c, r)
      | _ => none
    else none

theorem firstReturn_append (t : τ) (tr tr' : Trace τ) :
    firstReturn t (tr ++ tr') = (firstReturn t tr).or (firstReturn t tr') := by
  rw [firstReturn, List.findSome?_append]
  rfl

theorem firstReturn_of_ne {t : τ} {tr : Trace τ} (h : ∀ x ∈ tr, x.1 ≠ t) : firstReturn t tr = none := by
  refine List.findSome?_eq_none_iff.2 fun x hx => ?_
  rw [if_neg (h x hx)]

/-! ### What a woken writer does -/

/-- A step of the writer itself: it stays in the call, or returns a number of bytes. -/
private theorem afterWait_of_after {buffer : List Byte} {st : Stage} {h : List Event} {q q' : DataQueue N} {k : Point}
    {es : List Event} (hst : afterWait st = true) (hat : At anyCall (.write buffer) st h q)
    (hafter : (code (.busy (.write buffer) st) q).after q = some (k, q', es)) :
    (∃ st', k = .busy (.write buffer) st' ∧ afterWait st' = true ∧ ∀ c r, .ret c r ∉ es) ∨
      ∃ n, es = [.ret (.write buffer) (.count n)] := by
  cases st with
  | relock | wait | copy | notifyReaders n =>
    cases hafter
    exact .inl ⟨_, rfl, rfl, by simp⟩
  | predicate =>
    cases hafter
    refine .inl ⟨_, rfl, ?_, by simp⟩
    split <;> rfl
  | recheck =>
    -- the wait is over, so there is room
    have hroom : 0 < q.buffer.fifo.room := hat.1.resolve_left (by simp)
    cases hafter
    refine .inl ⟨_, rfl, ?_, by simp⟩
    rw [availableWriteSize, ByteRing.availableWriteSize_eq, if_neg (by omega)]
    rfl
  | leave r =>
    cases r with
    | count n =>
      cases hafter
      exact .inr ⟨n, rfl⟩
    | _ => cases hst
  | _ => cases hst

/-- A writer that has been in its wait leaves `write` only with a number of bytes. -/
theorem firstReturn_of_afterWait {q₀ : DataQueue N} {tr tr' : Trace τ} {s s' : State τ N}
    (hrun : (program N anyCall).machine.Run (.start q₀ .idle) tr s) {t : τ} {buffer : List Byte} {st : Stage}
    (hpc : s.pc t = .busy (.write buffer) st) (hst : afterWait st = true)
    (hrun' : (program N anyCall).machine.Run s tr' s') :
    (firstReturn t tr' = none ∧ ∃ st', s'.pc t = .busy (.write buffer) st' ∧ afterWait st' = true) ∨
      ∃ n, firstReturn t tr' = some (.write buffer, .count n) := by
  induction hrun' with
  | start => exact .inl ⟨rfl, st, hpc, hst⟩
  | @step tr' s' l s'' es hrun' _ hnext ih =>
    rw [firstReturn_append]
    rcases ih with ⟨hnone, st', hpc', hst'⟩ | ⟨n, hsome⟩
    · have hassert := assertion_of_run (hrun.trans hrun') t
      rw [hpc'] at hassert
      rw [hnone, Option.none_or]
      rcases Program.thread_cases hnext t with
        ⟨hsame, hne⟩ | ⟨p, -, hidle, -⟩ | ⟨k, es', hafter, hk, rfl⟩ | ⟨k, hk, -⟩
      · exact .inl ⟨firstReturn_of_ne hne, st', hsame.trans hpc', hst'⟩
      · rw [hpc'] at hidle
        cases hidle
      · rw [hpc'] at hafter
        rcases afterWait_of_after hst' hassert.2 hafter with ⟨st'', rfl, hst'', hret⟩ | ⟨n, rfl⟩
        · refine .inl ⟨?_, st'', hk, hst''⟩
          refine List.findSome?_eq_none_iff.2 fun x hx => ?_
          obtain ⟨e, he, rfl⟩ := List.mem_map.1 hx
          cases e with
          | ret c r => exact absurd he (hret c r)
          | _ => simp
        · exact .inr ⟨n, by simp [firstReturn]⟩
      · rw [hpc'] at hk
        cases st' <;> cases hk
    · exact .inr ⟨n, by rw [hsome, Option.some_or]⟩

/-! ### While nobody reads -/

/-- A full buffer stays as it is while nobody takes bytes out of it. -/
private theorem fifo_of_effect {p : Point} {q q' : DataQueue N} {es : List Event} (h : Effect p q q' es)
    (hfull : q.buffer.fifo.room = 0) (htook : ∀ bs, .took bs ∈ es → bs = []) :
    q'.buffer.fifo = q.buffer.fifo := by
  cases h with
  | @copyOut c buflen _ _ =>
    have hnil := htook _ (List.mem_singleton_self _)
    apply BoundedFifo.ext
    have hsplit := List.take_append_drop buflen q.buffer.fifo.items
    rw [hnil, List.nil_append] at hsplit
    rw [ByteRing.fifo_read]
    exact hsplit
  | copyIn _ => rw [ByteRing.fifo_write, BoundedFifo.push_of_room_eq_zero hfull]
  | flag _ | ret _ | silent => rfl

/-- While nobody reads, a writer that waits at a full buffer stays in its wait, and the buffer stays as it is. -/
theorem blocked_of_run {tr' : Trace τ} {s s' : State τ N} {t : τ} {buffer : List Byte}
    (hwaits : WaitsForRoom s t buffer) (hfull : s.data.buffer.fifo.room = 0)
    (hrun' : (program N anyCall).machine.Run s tr' s') (hnone : delivered tr' = []) :
    WaitsForRoom s' t buffer ∧ s'.data.buffer.fifo = s.data.buffer.fifo := by
  induction hrun' with
  | start => exact ⟨hwaits, rfl⟩
  | @step tr' s' l s'' es _ _ hnext ih =>
    rw [delivered_append, List.append_eq_nil_iff] at hnone
    obtain ⟨hwaits', hfifo⟩ := ih hnone.1
    have hroom : s'.data.buffer.fifo.room = 0 := by rw [hfifo, hfull]
    constructor
    · rcases Program.thread_cases hnext t with ⟨hsame, -⟩ | ⟨p, -, hidle, -⟩ | ⟨k, es', hafter, rfl, -⟩ | ⟨k, hk, -⟩
      · rwa [WaitsForRoom, hsame]
      · rcases hwaits' with hpc | hpc | hpc <;> rw [hpc] at hidle <;> cases hidle
      · generalize s''.data = q' at hafter
        rcases hwaits' with hpc | hpc | hpc <;> rw [hpc] at hafter
        · simp only [program, code, writeCode, Action.after, Option.some.injEq, Prod.mk.injEq] at hafter
          exact .inr (.inl hafter.1.symm)
        · -- the predicate fails
          simp only [program, code, writeCode, goto, Action.after, availableWriteSize,
            ByteRing.availableWriteSize_eq, hroom, Nat.lt_irrefl, if_false, Option.some.injEq, Prod.mk.injEq]
            at hafter
          exact .inr (.inr hafter.1.symm)
        · simp only [program, code, writeCode, Action.after, Option.some.injEq, Prod.mk.injEq] at hafter
          exact .inl hafter.1.symm
      · rcases hwaits' with hpc | hpc | hpc <;> rw [hpc] at hk <;> cases hk
    · rw [← hfifo]
      rcases Program.data_cases hnext with ⟨hdata, -⟩ | ⟨u, p, -, hdata, -⟩ | ⟨u, k, es', hafter, rfl⟩
      · rw [hdata]
      · rw [hdata]
      · refine fifo_of_effect (effect_of_after hafter) hroom fun bs hbs => ?_
        have hmem := List.flatMap_eq_nil_iff.1 hnone.2 (u, .event (.took bs)) (List.mem_map_of_mem hbs)
        exact hmem

/-! ### Loss of the connection -/

/-- In the trace `setConnectionFlag(false)` runs to its end, and nobody takes bytes out of the buffer. -/
structure LostUnread (tr' : Trace τ) : Prop where
  lost : ∃ u, (u, .event (.ret (.setConnectionFlag false) .void)) ∈ tr'
  unread : delivered tr' = []

/-- There is a way on in which the call of `write` that the thread was in before `tr'` returns `eConnectionLost`. -/
def Released (s' : State τ N) (t : τ) (buffer : List Byte) (tr' : Trace τ) : Prop :=
  ∃ tr'' s'', (program N anyCall).machine.Run s' tr'' s'' ∧
    firstReturn t (tr' ++ tr'') = some (.write buffer, .error .eConnectionLost)

/-- Unless somebody reads, the thread stays in the wait of `write` at a full buffer: every wake-up sends it back to
sleep. -/
def SentBack (s' : State τ N) (t : τ) (buffer : List Byte) : Prop :=
  ∀ tr'' s'', (program N anyCall).machine.Run s' tr'' s'' → delivered tr'' = [] →
    WaitsForRoom s'' t buffer ∧ s''.data.availableWriteSize = 0

/-- A thread asleep in `write` is in the wait of its call. -/
theorem relock_of_asleep {q₀ : DataQueue N} {tr : Trace τ} {s : State τ N}
    (hrun : (program N anyCall).machine.Run (.start q₀ .idle) tr s) {t : τ} {buffer : List Byte}
    (hasleep : AsleepIn s t (.write buffer)) : s.pc t = .busy (.write buffer) .relock := by
  obtain ⟨⟨st, hst⟩, cond, hmem⟩ := hasleep
  have hat := (disciplined anyCall).asleep_at hrun hmem
  rw [hst] at hat
  cases st <;> cases hat
  exact hst

/-- A writer that was asleep in `write` never reports a lost connection. -/
theorem not_released {q₀ : DataQueue N} {tr tr' : Trace τ} {s s' : State τ N}
    (hrun : (program N anyCall).machine.Run (.start q₀ .idle) tr s) {t : τ} {buffer : List Byte}
    (hasleep : AsleepIn s t (.write buffer)) (hrun' : (program N anyCall).machine.Run s tr' s') :
    ¬ Released s' t buffer tr' := by
  rintro ⟨tr'', s'', hrun'', hret⟩
  have hpc := relock_of_asleep hrun hasleep
  rcases firstReturn_of_afterWait hrun hpc rfl (hrun'.trans hrun'') with ⟨hnone, -⟩ | ⟨n, hcount⟩
  · rw [hnone] at hret
    cases hret
  · rw [hcount] at hret
    cases hret

/-- Whenever a thread sleeps in `write` at a full buffer, the loss of the connection does not release it: it never
returns `eConnectionLost`, and while nobody reads it does not return at all. -/
theorem never_released (hN : 1 ≤ N) (tr : Trace τ) (s : State τ N)
    (hrun : (program N anyCall).machine.Run (.start (.new N hN) .idle) tr s) (t : τ) (buffer : List Byte)
    (hasleep : AsleepIn s t (.write buffer)) (hfull : s.data.availableWriteSize = 0) (tr' : Trace τ) (s' : State τ N)
    (hrun' : (program N anyCall).machine.Run s tr' s') (hloss : LostUnread tr') :
    ¬ Released s' t buffer tr' ∧ SentBack s' t buffer := by
  have hpc := relock_of_asleep hrun hasleep
  rw [availableWriteSize, ByteRing.availableWriteSize_eq] at hfull
  refine ⟨not_released hrun hasleep hrun', fun tr'' s'' hrun'' hunread => ?_⟩
  obtain ⟨hwaits, hfifo⟩ := blocked_of_run (.inl hpc) hfull (hrun'.trans hrun'')
    (by rw [delivered_append, hloss.unread, hunread, List.append_nil])
  rw [availableWriteSize, ByteRing.availableWriteSize_eq, hfifo]
  exact ⟨hwaits, hfull⟩

/-- The writer fills a queue with room for one byte and falls asleep in its second call. -/
def fillAndSleep : List (Label Bool Point) :=
  List.flatten [[.invoke false (.busy (.setConnectionFlag true) .enter)], List.replicate 3 (.step false),
    [.invoke true (.busy (.write [7]) .enter)], List.replicate 6 (.step true),
    [.invoke true (.busy (.write [8]) .enter)], List.replicate 6 (.step true)]

/-- The connection is lost; the writer is woken, finds the buffer full and falls asleep again. -/
def loseAndSleep : List (Label Bool Point) :=
  List.flatten [[.invoke false (.busy (.setConnectionFlag false) .enter)], List.replicate 6 (.step false),
    List.replicate 3 (.step true)]

private theorem lost_asleep : ∃ (tr : Trace Bool) (s : State Bool 2) (tr' : Trace Bool) (s' : State Bool 2),
    (program 2 anyCall).machine.Run (.start (.new 2 (by decide)) .idle) tr s ∧
      AsleepIn s true (.write [8]) ∧ s.data.availableWriteSize = 0 ∧ (program 2 anyCall).machine.Run s tr' s' ∧
      LostUnread tr' ∧ s'.data.connected = false ∧ AsleepIn s' true (.write [8]) := by
  have h : (((program 2 anyCall).machine.exec (.start (.new 2 (by decide)) .idle) fillAndSleep).any fun r =>
      ((program 2 anyCall).machine.exec r.1 loseAndSleep).any fun r' =>
        decide ((r.1.pc true = .busy (.write [8]) .relock ∧ (true, .writeCondition) ∈ r.1.asleep) ∧
          r.1.data.availableWriteSize = 0 ∧ (false, .event (.ret (.setConnectionFlag false) .void)) ∈ r'.2 ∧
          delivered r'.2 = [] ∧ r'.1.data.connected = false ∧
          r'.1.pc true = .busy (.write [8]) .relock ∧ (true, .writeCondition) ∈ r'.1.asleep)) = true := by
    decide +kernel
  obtain ⟨⟨s, tr⟩, hexec, h⟩ := (Option.any_eq_true _ _).1 h
  obtain ⟨⟨s', tr'⟩, hexec', h⟩ := (Option.any_eq_true _ _).1 h
  obtain ⟨⟨hpc, hasleep⟩, hfull, hlost, hunread, hflag, hpc', hasleep'⟩ := of_decide_eq_true h
  exact ⟨tr, s, tr', s', Machine.RunWhere.of_exec hexec, ⟨⟨_, hpc⟩, _, hasleep⟩, hfull,
    Machine.RunWhere.of_exec hexec', ⟨⟨false, hlost⟩, hunread⟩, hflag, ⟨_, hpc'⟩, _, hasleep'⟩

theorem never_released_two : ∃ (s' : State Bool 2) (tr' : Trace Bool), s'.data.connected = false ∧
    AsleepIn s' true (.write [8]) ∧ ¬ Released s' true [8] tr' ∧ SentBack s' true [8] := by
  obtain ⟨tr, s, tr', s', hrun, hasleep, hfull, hrun', hloss, hflag, hasleep'⟩ := lost_asleep
  exact ⟨s', tr', hflag, hasleep', never_released (by decide) tr s hrun true [8] hasleep hfull tr' s' hrun' hloss⟩

/-- A writer that is not released: the connection is lost and the notified writer sleeps in `write` again. -/
theorem writer_not_released : ¬ ∀ (tr : Trace Bool) (s : State Bool 2),
    (program 2 anyCall).machine.Run (.start (.new 2 (by decide)) .idle) tr s →
    ∀ t buffer, AsleepIn s t (.write buffer) → s.data.availableWriteSize = 0 → ∀ tr' s',
      (program 2 anyCall).machine.Run s tr' s' → LostUnread tr' → Released s' t buffer tr' := by
  intro hall
  obtain ⟨tr, s, tr', s', hrun, hasleep, hfull, hrun', hloss, -, -⟩ := lost_asleep
  exact not_released hrun hasleep hrun' (hall tr s hrun true [8] hasleep hfull tr' s' hrun' hloss)

end DataQueue

end Cppio
