import Cppio.DataQueueWakeup
import Cppio.Lib.Progress

/-!
# Progress of the queue

A writer can miss a wake-up (`Cppio.DataQueueWakeup`), a reader cannot: a thread that sleeps in a read faces an empty
buffer, or the writer that has filled it is about to notify the readers (`fed_of_run`).  And the mutex never stands in
the way: when no thread can act, every thread that is in a call sleeps in it (`asleep_of_stuck`), the readers on an
empty buffer (`readers_not_lost`).

With one reader the wake-up that a writer missed is made good when the reader comes back: a writer sleeps on a full
buffer, or the reader has still to notify the writers before it can fall asleep itself (`roomless_of_run`).  So the
reader and a writer never wait for each other (`no_deadlock_of_one_reader`).
-/

namespace Cppio

namespace DataQueue

open Monitor

variable {τ : Type} [DecidableEq τ] {N : Nat} {calls : Call → Bool} {ok : State τ N → Label τ Point → Prop}
  {q₀ : DataQueue N} {s s' : State τ N} {tr es : Trace τ}

/-! ### Sleeping readers -/

/-- A thread falls asleep in a read only on an empty buffer. -/
private theorem empty_of_wait {p k : Point} {q : DataQueue N} {h : List Event} {m : Unit}
    (hassert : Assertion calls p h q) (hcode : code p q = .wait .readCondition m k) : q.buffer.fifo.items = [] := by
  cases p with
  | idle => cases hcode
  | busy c st =>
    obtain ⟨-, hat⟩ := hassert
    cases c with
    | read buflen | readWithTimeout buflen timeout =>
      cases st <;> cases hcode
      exact List.length_eq_zero_iff.1 hat.1
    | write buffer => cases st <;> cases hcode
    | setConnectionFlag c => cases st <;> cases hcode

/-- A thread falls asleep in a write only on a full buffer. -/
private theorem full_of_wait {p k : Point} {q : DataQueue N} {h : List Event} {m : Unit}
    (hassert : Assertion calls p h q) (hcode : code p q = .wait .writeCondition m k) : q.buffer.fifo.room = 0 := by
  cases p with
  | idle => cases hcode
  | busy c st =>
    obtain ⟨-, hat⟩ := hassert
    cases c with
    | write buffer =>
      cases st <;> cases hcode
      exact hat.1
    | read _ | readWithTimeout _ _ | setConnectionFlag _ => cases st <;> cases hcode

/-- A buffer that is empty stays so, or a writer has filled it and is about to notify the readers. -/
private theorem fed_of_after {p k : Point} {q q' : DataQueue N} {es : List Event}
    (hafter : (code p q).after q = some (k, q', es)) (hnil : q.buffer.fifo.items = []) :
    q'.buffer.fifo.items = [] ∨ Notifies k := by
  cases effect_of_after hafter with
  | @copyOut c buflen _ _ =>
    left
    rw [ByteRing.fifo_read]
    exact BoundedFifo.pop_items_of_nil hnil buflen
  | @copyIn buffer hp =>
    right
    rw [hp] at hafter
    simp only [code, writeCode, Action.after, Option.some.injEq, Prod.mk.injEq] at hafter
    exact ⟨buffer, _, hafter.1.symm⟩
  | flag _ => exact .inl hnil
  | ret _ => exact .inl hnil
  | silent => exact .inl hnil

/-- No reader sleeps through bytes that are there, unless it is about to be woken. -/
theorem fed_of_run (hrun : (program N calls).machine.RunWhere ok (.start q₀ .idle) tr s) {t : τ}
    (ht : (t, .readCondition) ∈ s.asleep) : s.data.buffer.fifo.items = [] ∨ ∃ u, Notifies (s.pc u) := by
  refine (disciplined calls).noticed (fun _ q => q.buffer.fifo.items = []) (fun _ p => Notifies p)
    ?_ ?_ ?_ ?_ ?_ hrun ht
  · exact fun past s t m k hrun _ hcode => empty_of_wait (assertion_of_run hrun t) hcode
  · exact fun past s t k q es _ _ hafter _ hnil => fed_of_after hafter hnil
  · intro past s t k q es _ _ hnotifies hafter
    obtain ⟨k', hcode⟩ := code_of_notifies (q := s.data) hnotifies
    rw [show (program N calls).code (s.pc t) s.data = _ from hcode] at hafter ⊢
    cases hafter
    exact .inr (.inl rfl)
  · rintro t p q hidle - ⟨buffer, n, rfl⟩
    cases hidle
  · rintro t p k hexpire ⟨buffer, n, rfl⟩
    cases hexpire

/-! ### Stuck states -/

/-- A point of a method, where a thread has something to do, or the point outside every call. -/
def Proper (N : Nat) (p : Point) : Prop := p = .idle ∨ ∀ q : DataQueue N, code p q ≠ .stop

private theorem proper_of_after {p k : Point} {q q' : DataQueue N} {es : List Event}
    (hafter : (code p q).after q = some (k, q', es)) : Proper N k := by
  cases p with
  | idle => cases hafter
  | busy c st =>
    cases c <;> cases st <;> cases hafter <;> first | exact .inl rfl | refine .inr fun q hcode => ?_
    all_goals try split at hcode
    all_goals cases hcode

theorem proper_of_run (hrun : (program N calls).machine.RunWhere ok (.start q₀ .idle) tr s) :
    ∀ t, Proper N (s.pc t) := by
  refine Program.point_of_run (Proper N) (.inl rfl) ?_ (fun p q k q' es hafter _ => proper_of_after hafter) ?_ hrun
  · intro p hentry
    cases p with
    | idle => cases hentry
    | busy c st =>
      cases st with
      | enter => cases c <;> exact .inr fun q hcode => by cases hcode
      | _ => cases hentry
  · intro p k hk _
    cases p with
    | idle => cases hk
    | busy c st =>
      cases c <;> cases st <;> cases hk
      exact .inr fun q hcode => by cases hcode

/-- A thread that locks the mutex does not hold it. -/
private theorem not_holds_of_lock {p k : Point} {q : DataQueue N} {m : Unit} (h : code p q = .lock m k) :
    ¬ holds p () := by
  cases p with
  | idle => exact id
  | busy c st => cases c <;> cases st <;> cases h <;> exact Bool.false_ne_true

/-- When no thread can act, every thread that is in a call is asleep in it. -/
theorem asleep_of_stuck (hrun : (program N calls).machine.RunWhere ok (.start q₀ .idle) tr s)
    (hstuck : Stuck (program N calls) s) {t : τ} {c : Call} {st : Stage} (hbusy : s.pc t = .busy c st) :
    ∃ cond, (t, cond) ∈ s.asleep := by
  -- the owner of the mutex could act
  have hfree : ∀ u, ¬ holds (s.pc u) () := by
    intro u hu
    rcases hstuck.cases u with hasleep | hstop | ⟨m, k, v, hlock, -⟩
    · obtain ⟨⟨v, cond⟩, hmem, rfl⟩ : ∃ p ∈ s.asleep, p.1 = u := by simpa [State.Awake] using hasleep
      have hat := (disciplined calls).asleep_at hrun hmem
      generalize s.pc v = p at hu hat
      cases p with
      | idle => exact hu
      | busy c st => cases c <;> cases st <;> cases hat <;> exact Bool.false_ne_true hu
    · rcases proper_of_run hrun u with hidle | hcode
      · rw [hidle] at hu
        exact hu
      · exact hcode _ hstop
    · exact not_holds_of_lock hlock hu
  rcases hstuck.cases t with hasleep | hstop | ⟨m, k, v, hlock, howner⟩
  · obtain ⟨⟨v, cond⟩, hmem, rfl⟩ : ∃ p ∈ s.asleep, p.1 = t := by simpa [State.Awake] using hasleep
    exact ⟨cond, hmem⟩
  · rcases proper_of_run hrun t with hidle | hcode
    · rw [hidle] at hbusy
      cases hbusy
    · exact absurd hstop (hcode _)
  · exact absurd (((disciplined calls).owner_iff rfl hrun v m).1 howner) (hfree v)

/-- When no thread can act, a thread that is in a call has not moved any bytes in it. -/
theorem own_of_stuck (hrun : (program N calls).machine.RunWhere ok (.start q₀ .idle) tr s)
    (hstuck : Stuck (program N calls) s) {t : τ} {c : Call} {st : Stage} (hbusy : s.pc t = .busy c st) :
    own t tr = [] := by
  obtain ⟨cond, hmem⟩ := asleep_of_stuck hrun hstuck hbusy
  have hat := (disciplined calls).asleep_at hrun hmem
  have hassert := assertion_of_run hrun t
  rw [hbusy] at hat hassert
  cases c <;> cases st <;> cases hat <;> exact hassert.2

/-- Whatever calls are made, a thread that sleeps in a read faces an empty buffer, or a writer that has filled it is
about to notify the readers.  When no thread can act, every thread is outside the calls or asleep in one, and those in
a read face an empty buffer. -/
theorem readers_not_lost (hrun : (program N calls).machine.RunWhere ok (.start q₀ .idle) tr s) :
    (∀ t c, AsleepIn s t c → c.buflen.isSome → s.data.availableReadSize = 0 ∨ ∃ u, Notifies (s.pc u)) ∧
    (Stuck (program N calls) s → ∀ t c st, s.pc t = .busy c st →
      AsleepIn s t c ∧ (c.buflen.isSome → s.data.availableReadSize = 0)) := by
  have hfed : ∀ t c, AsleepIn s t c → c.buflen.isSome →
      s.data.availableReadSize = 0 ∨ ∃ u, Notifies (s.pc u) := by
    rintro t c ⟨⟨st, hst⟩, cond, hmem⟩ hreads
    have hat := (disciplined calls).asleep_at hrun hmem
    rw [hst] at hat
    have hcond : cond = .readCondition := by
      cases c with
      | read _ | readWithTimeout _ _ => cases st <;> cases hat; rfl
      | write _ | setConnectionFlag _ => cases hreads
    subst hcond
    refine (fed_of_run hrun hmem).imp (fun hnil => ?_) id
    rw [availableReadSize, ByteRing.availableReadSize_eq, hnil, List.length_nil]
  refine ⟨hfed, fun hstuck t c st hbusy => ?_⟩
  have hin : AsleepIn s t c := ⟨⟨st, hbusy⟩, asleep_of_stuck hrun hstuck hbusy⟩
  refine ⟨hin, fun hreads => (hfed t c hin hreads).resolve_right ?_⟩
  rintro ⟨u, buffer, n, hu⟩
  -- the writer sleeps, so it does not notify
  obtain ⟨cond, hmem⟩ := asleep_of_stuck hrun hstuck hu
  have hat := (disciplined calls).asleep_at hrun hmem
  rw [hu] at hat
  cases hat

/-- A reader that began before the bytes of a writer came sleeps, on a buffer that a third thread has emptied. -/
theorem readers_not_lost_two : ∃ tr s,
    (program 3 dataCalls).machine.Run (.start (.connectedNew 3 (by decide)) .idle : State (Fin 3) 3) tr s ∧
      (AsleepIn s 0 (.read 1) ∧ delivered tr = [7]) ∧
    (∀ t c, AsleepIn s t c → c.buflen.isSome → s.data.availableReadSize = 0 ∨ ∃ u, Notifies (s.pc u)) ∧
    (Stuck (program 3 dataCalls) s → ∀ t c st, s.pc t = .busy c st →
      AsleepIn s t c ∧ (c.buflen.isSome → s.data.availableReadSize = 0)) := by
  have h : (((program 3 dataCalls).machine.exec (.start (.connectedNew 3 (by decide)) .idle)
      (List.flatten [[.invoke 0 (.busy (.read 1) .enter)], List.replicate 5 (.step 0),
        [.invoke 1 (.busy (.write [7]) .enter)], List.replicate 6 (.step 1),
        [.invoke 2 (.busy (.read 1) .enter)], List.replicate 5 (.step 2), List.replicate 6 (.step 0)])).any
      fun r => decide ((r.1.pc (0 : Fin 3) = .busy (.read 1) .relock ∧ r.1.asleep = [(0, .readCondition)]) ∧
        delivered r.2 = [7])) = true := by decide +kernel
  obtain ⟨⟨s, tr⟩, hexec, hs⟩ := (Option.any_eq_true _ _).1 h
  obtain ⟨⟨hpc, hasleep⟩, hdelivered⟩ := of_decide_eq_true hs
  have hin : AsleepIn s 0 (.read 1) := by
    refine ⟨⟨_, hpc⟩, .readCondition, ?_⟩
    rw [show s.asleep = [(0, .readCondition)] from hasleep]
    exact List.mem_singleton.2 rfl
  have hrun := Machine.RunWhere.of_exec hexec
  exact ⟨tr, s, hrun, ⟨hin, hdelivered⟩, readers_not_lost hrun⟩

/-! ### One reader -/

/-- The start of a call that reads. -/
def beginsRead : Obs Point Event → Bool
  | .call (.busy c _) => c.buflen.isSome
  | _ => false

/-- The calls that read are all made by `r`. -/
def OneReader (r : τ) (tr : Trace τ) : Prop := ∀ x ∈ tr, beginsRead x.2 = true → x.1 = r

instance (r : τ) (tr : Trace τ) : Decidable (OneReader r tr) :=
  inferInstanceAs (Decidable (∀ x ∈ tr, beginsRead x.2 = true → x.1 = r))

/-- A read that has notified the writers and not yet taken its bytes. -/
def HasNotified : Point → Prop
  | .busy (.read _) st | .busy (.readWithTimeout _ _) st =>
    match st with
    | .enter | .notifyWriters | .leave _ => False
    | _ => True
  | _ => False

/-- A full buffer stays full, or a reader has taken bytes out of it. -/
private theorem roomless_of_after {p k : Point} {q q' : DataQueue N} {es : List Event}
    (hafter : (code p q).after q = some (k, q', es)) (hfull : q.buffer.fifo.room = 0) :
    q'.buffer.fifo.room = 0 ∨ (∃ c st, p = .busy c st ∧ c.buflen.isSome) ∧ ¬ HasNotified k := by
  cases effect_of_after hafter with
  | @copyOut c buflen hp hc =>
    refine .inr ⟨⟨c, _, hp, by rw [hc]; rfl⟩, ?_⟩
    rw [hp] at hafter
    cases c <;> cases hc <;> simp only [code, readCode, readWithTimeoutCode, copyOut, Action.after,
      Option.some.injEq, Prod.mk.injEq] at hafter <;> exact hafter.1 ▸ id
  | @copyIn buffer hp =>
    left
    rw [ByteRing.fifo_write, BoundedFifo.push_of_room_eq_zero hfull]
    exact hfull
  | flag _ => exact .inl hfull
  | ret _ => exact .inl hfull
  | silent => exact .inl hfull

/-- A reader comes to the waiting part of a read only by a notification of all writers. -/
private theorem notifies_of_after {p k : Point} {q q' : DataQueue N} {es : List Event}
    (hafter : (code p q).after q = some (k, q', es)) (hbefore : ¬ HasNotified p) (hnow : HasNotified k) :
    code p q = .notifyAll .writeCondition k := by
  cases p with
  | idle => cases hafter
  | busy c st =>
    cases c <;> cases st <;> cases hafter <;> first | rfl | exact hnow.elim | exact absurd trivial hbefore

/-- With one reader, a writer sleeps on a full buffer, or the reader has still to notify the writers before it can
fall asleep. -/
theorem roomless_of_run {r : τ} (hrun : (program N calls).machine.RunWhere ok (.start q₀ .idle) tr s)
    (hone : OneReader r tr) {t : τ} (ht : (t, .writeCondition) ∈ s.asleep) :
    s.data.buffer.fifo.room = 0 ∨ ¬ HasNotified (s.pc r) := by
  have hroom : s.data.buffer.fifo.room = 0 ∨ ∃ u, u = r ∧ ¬ HasNotified (s.pc u) := by
    refine (disciplined calls).noticed (fun _ q => q.buffer.fifo.room = 0)
      (fun u p => u = r ∧ ¬ HasNotified p) ?_ ?_ ?_ ?_ ?_ hrun ht
    · exact fun past s t m k hrun _ hcode => full_of_wait (assertion_of_run hrun t) hcode
    · intro past s t k q es hrun hpast hafter _ hfull
      refine (roomless_of_after hafter hfull).imp id ?_
      rintro ⟨⟨c, st, hbusy, hreads⟩, hnot⟩
      exact ⟨hone _ (hpast.subset (call_mem hrun hbusy)) hreads, hnot⟩
    · rintro past s t k q es - - ⟨hr, hbefore⟩ hafter
      by_cases hnow : HasNotified k
      · exact .inr (.inl (notifies_of_after hafter hbefore hnow))
      · exact .inl ⟨hr, hnow⟩
    · rintro t p q - hentry ⟨hr, -⟩
      refine ⟨hr, ?_⟩
      cases q with
      | idle => exact id
      | busy c st =>
        cases st with
        | enter => cases c <;> exact id
        | _ => cases hentry
    · rintro t p k hexpire ⟨-, hbefore⟩
      cases p with
      | idle => cases hexpire
      | busy c st =>
        cases c <;> cases st <;> cases hexpire
        exact absurd trivial hbefore
  refine hroom.imp id ?_
  rintro ⟨_, rfl, hnot⟩
  exact hnot

/-- With one reader on a queue that can hold a byte, the reader and a writer never wait for each other: when no thread
can act although the reader is in a call of `read` or `readWithTimeout`, nothing is left in the buffer and all other
threads are outside the calls. -/
theorem no_deadlock_of_one_reader (hN : 2 ≤ N) {r : τ}
    (hrun : (program N calls).machine.RunWhere ok (.start q₀ .idle) tr s) (hone : OneReader r tr)
    (hstuck : Stuck (program N calls) s) {c : Call} {st : Stage} (hbusy : s.pc r = .busy c st)
    (hreads : c.buflen.isSome) : s.data.availableReadSize = 0 ∧ ∀ t, t ≠ r → s.pc t = .idle := by
  obtain ⟨⟨-, hasleep⟩, hempty⟩ := (readers_not_lost hrun).2 hstuck r c st hbusy
  have hempty := hempty hreads
  refine ⟨hempty, fun t ht => ?_⟩
  cases hpc : s.pc t with
  | idle => rfl
  | busy c' st' =>
    -- the thread sleeps in a write, but there is room
    obtain ⟨cond, hmem⟩ := asleep_of_stuck hrun hstuck hpc
    have hat := (disciplined calls).asleep_at hrun hmem
    have hother : ¬ c'.buflen.isSome := fun h => ht (hone _ (call_mem hrun hpc) h)
    rw [hpc] at hat
    have hcond : cond = .writeCondition := by
      cases c' with
      | read _ | readWithTimeout _ _ => exact absurd rfl hother
      | write _ => cases st' <;> cases hat; rfl
      | setConnectionFlag _ => cases st' <;> cases hat
    subst hcond
    have hnotified : HasNotified (s.pc r) := by
      obtain ⟨cond, hmem⟩ := hasleep
      have hat := (disciplined calls).asleep_at hrun hmem
      rw [hbusy] at hat ⊢
      cases c with
      | read _ | readWithTimeout _ _ => cases st <;> cases hat; exact trivial
      | write _ | setConnectionFlag _ => cases hreads
    have hfull := (roomless_of_run hrun hone hmem).resolve_right (not_not_intro hnotified)
    rw [availableReadSize, ByteRing.availableReadSize_eq] at hempty
    rw [BoundedFifo.room, hempty] at hfull
    omega

/-- The reader of `lostWakeup` comes back: it wakes the writer, takes its second byte too, and then sleeps alone. -/
theorem no_deadlock_of_one_reader_two : ∃ tr s,
    (program 2 dataCalls).machine.Run (.start (.connectedNew 2 (by decide)) .idle : State Bool 2) tr s ∧
      (delivered tr = [7, 8] ∧ s.pc false = .busy (.read 1) .relock) ∧
      s.data.availableReadSize = 0 ∧ ∀ t, t ≠ false → s.pc t = .idle := by
  have h : (((program 2 dataCalls).machine.exec (.start (.connectedNew 2 (by decide)) .idle)
      (lostWakeup ++ List.flatten [[.invoke false (.busy (.read 1) .enter)], List.replicate 5 (.step false),
        List.replicate 6 (.step true), List.replicate 5 (.step false), [.invoke false (.busy (.read 1) .enter)],
        List.replicate 5 (.step false)])).any
      fun r => decide ((delivered r.2 = [7, 8] ∧ r.1.pc false = .busy (.read 1) .relock) ∧ OneReader false r.2 ∧
        ∀ t, ((program 2 dataCalls).next r.1 (.step t)).isNone ∧
          ∀ u, ((program 2 dataCalls).next r.1 (.signal t u)).isNone)) = true := by decide +kernel
  obtain ⟨⟨s, tr⟩, hexec, hs⟩ := (Option.any_eq_true _ _).1 h
  obtain ⟨hreader, hone, hnone⟩ := of_decide_eq_true hs
  have hrun := Machine.RunWhere.of_exec hexec
  have hstuck : Stuck (program 2 dataCalls) s := fun t =>
    ⟨Option.isNone_iff_eq_none.1 (hnone t).1, fun u => Option.isNone_iff_eq_none.1 ((hnone t).2 u)⟩
  exact ⟨tr, s, hrun, hreader, no_deadlock_of_one_reader (by decide) hrun hone hstuck hreader.2 rfl⟩

end DataQueue

end Cppio
