import Cppio.DataQueueSafety

/-!
# Wake-ups of the queue

A `write` notifies the readers after it has put its bytes into the buffer, but a `read` notifies the writers only when
it begins.  A reader that had to wait takes its bytes after its notification, so a writer that fell asleep in between
is not told about the room: it sleeps on although there is room, and nobody is on the way to wake it
(`lost_wakeup`).

That is the only way to lose a wake-up.  In a run where no read takes bytes out of the buffer while a thread is asleep
in `write`, sleeping writers face a full buffer and sleeping readers an empty one, unless a writer is just about to
notify the readers (`no_lost_wakeup`).
-/

namespace Cppio

namespace DataQueue

open Monitor

variable {τ : Type} {N : Nat}

/-- The thread is asleep in the call. -/
def AsleepIn (s : State τ N) (t : τ) (c : Call) : Prop := (∃ st, s.pc t = .busy c st) ∧ ∃ cond, (t, cond) ∈ s.asleep

/-- No thread is inside the mutex, and no notified thread is still waiting to run. -/
structure Quiet (s : State τ N) : Prop where
  free : s.owner () = none
  asleep : ∀ t c, s.pc t = .busy c .relock → AsleepIn s t c

/-- In a quiet state a thread asleep in `write` faces a full buffer, and one asleep in a read an empty buffer. -/
def NoLostWakeup (s : State τ N) : Prop :=
  Quiet s → ∀ t c, AsleepIn s t c →
    (∀ buffer, c = .write buffer → s.data.availableWriteSize = 0) ∧
    (c.buflen.isSome → s.data.availableReadSize = 0)

/-- The next step of a thread takes bytes out of the buffer. -/
def takesBytes : Point → Bool
  | .busy c .copy => c.buflen.any (0 < ·)
  | _ => false

/-- No read takes bytes out of the buffer while a thread is asleep in `write`. -/
def SparesWriters (s : State τ N) : Label τ Point → Prop
  | .step t => takesBytes (s.pc t) = true → ∀ p ∈ s.asleep, p.2 ≠ .writeCondition
  | _ => True

instance (s : State τ N) (l : Label τ Point) : Decidable (SparesWriters s l) :=
  match l with
  | .step t => inferInstanceAs (Decidable (takesBytes (s.pc t) = true → ∀ p ∈ s.asleep, p.2 ≠ .writeCondition))
  | .invoke _ _ | .signal _ _ | .wake _ | .expire _ => isTrue trivial

/-! ### The invariant -/

/-- A writer that has put its bytes into the buffer and has still to notify the readers. -/
def Notifies (p : Point) : Prop := ∃ buffer n, p = .busy (.write buffer) (.notifyReaders n)

/-- Sleeping writers face a full buffer; sleeping readers face an empty one, or are about to be notified. -/
structure Watched (s : State τ N) : Prop where
  writers : ∀ t, (t, .writeCondition) ∈ s.asleep → s.data.buffer.fifo.room = 0
  readers : ∀ t, (t, .readCondition) ∈ s.asleep → s.data.buffer.fifo.items = [] ∨ ∃ u, Notifies (s.pc u)

theorem code_of_notifies {p : Point} {q : DataQueue N} (h : Notifies p) :
    ∃ k, code p q = .notifyAll .readCondition k := by
  obtain ⟨buffer, n, rfl⟩ := h
  exact ⟨_, rfl⟩

theorem notifies_frame {pc pc' : τ → Point} (h : ∀ u, Notifies (pc u) → pc' u = pc u) :
    (∃ u, Notifies (pc u)) → ∃ u, Notifies (pc' u) := by
  rintro ⟨u, hu⟩
  exact ⟨u, (h u hu).symm ▸ hu⟩

/-- Waking threads, and steps of others than the notifying writer, keep the invariant. -/
theorem watched_of_subset {s s' : State τ N} (h : Watched s) (hdata : s'.data = s.data)
    (hasleep : ∀ p, p ∈ s'.asleep → p ∈ s.asleep) (hpc : ∀ u, Notifies (s.pc u) → s'.pc u = s.pc u) : Watched s' where
  writers t ht := by
    rw [hdata]
    exact h.writers t (hasleep _ ht)
  readers t ht := by
    rw [hdata]
    exact (h.readers t (hasleep _ ht)).imp id (notifies_frame hpc)

variable [DecidableEq τ]

omit [DecidableEq τ] in
theorem not_notifies_of_code {p : Point} {q : DataQueue N} (h : ∀ k, code p q ≠ .notifyAll .readCondition k) :
    ¬ Notifies p := by
  intro hp
  obtain ⟨k, hk⟩ := code_of_notifies (q := q) hp
  exact h k hk

theorem pc_frame {s : State τ N} {t : τ} {k : Point} (ht : ¬ Notifies (s.pc t)) :
    ∀ u, Notifies (s.pc u) → Function.update s.pc t k u = s.pc u := by
  intro u hu
  have hne : u ≠ t := by
    rintro rfl
    exact ht hu
  exact Function.update_of_ne hne _ _

/-- A step on the queue itself keeps the invariant, if it spares the writers. -/
theorem watched_run {s : State τ N} {t : τ} {k : Point} {q' : DataQueue N} {es : List Event} (h : Watched s)
    (hspares : takesBytes (s.pc t) = true → ∀ p ∈ s.asleep, p.2 ≠ .writeCondition)
    (hcode : code (s.pc t) s.data = .run q' es k) : Watched { s.goto t k with data := q' } := by
  have hnot : ¬ Notifies (s.pc t) := by
    apply not_notifies_of_code (q := s.data)
    simp [hcode]
  have hframe := pc_frame (k := k) hnot
  have hafter : (code (s.pc t) s.data).after s.data = some (k, q', es) := by
    rw [hcode]
    rfl
  have hsame : q'.buffer = s.data.buffer → Watched { s.goto t k with data := q' } := by
    intro hbuffer
    refine ⟨fun u hu => ?_, fun u hu => ?_⟩
    · rw [hbuffer]
      exact h.writers u hu
    · rw [hbuffer]
      exact (h.readers u hu).imp id (notifies_frame hframe)
  cases effect_of_after hafter with
  | @copyOut c buflen hp hbuflen =>
    refine ⟨fun u hu => ?_, fun u hu => ?_⟩
    · simp only [ByteRing.fifo_read]
      rcases Nat.eq_zero_or_pos buflen with rfl | hpos
      · exact h.writers u hu
      · have htakes : takesBytes (s.pc t) = true := by simpa [hp, takesBytes, hbuflen] using hpos
        exact absurd rfl (hspares htakes _ hu)
    · simp only [ByteRing.fifo_read]
      exact (h.readers u hu).imp (fun hnil => BoundedFifo.pop_items_of_nil hnil _) (notifies_frame hframe)
  | @copyIn buffer hp =>
    refine ⟨fun u hu => ?_, fun u hu => .inr ⟨t, ?_⟩⟩
    · simp only [ByteRing.fifo_write]
      rw [BoundedFifo.push_of_room_eq_zero (h.writers u hu)]
      exact h.writers u hu
    · -- the writer has put its bytes in and is about to notify the readers
      simp only [hp, code, writeCode, Action.run.injEq] at hcode
      obtain ⟨-, -, rfl⟩ := hcode
      exact ⟨buffer, _, Function.update_self ..⟩
  | flag _ => exact hsame rfl
  | ret _ => exact hsame rfl
  | silent => exact hsame rfl

/-- A thread falls asleep on a condition only when what it waits for is missing. -/
theorem watched_wait {s : State τ N} {t : τ} {k : Point} {cond : Condition} {m : Unit} {h : List Event}
    (hwatched : Watched s) (hassert : Assertion dataCalls (s.pc t) h s.data)
    (hcode : code (s.pc t) s.data = .wait cond m k) :
    Watched { s.goto t k with owner := Function.update s.owner m none, asleep := (t, cond) :: s.asleep } := by
  have hnot : ¬ Notifies (s.pc t) := by
    apply not_notifies_of_code (q := s.data)
    simp [hcode]
  have hframe := pc_frame (k := k) hnot
  have hmissing : (cond = .writeCondition → s.data.buffer.fifo.room = 0) ∧
      (cond = .readCondition → s.data.buffer.fifo.items = []) := by
    generalize s.pc t = p at hcode hassert
    cases p with
    | idle => cases hcode
    | busy c st =>
      obtain ⟨-, hat⟩ := hassert
      cases c with
      | read buflen | readWithTimeout buflen timeout =>
        cases st <;> cases hcode
        exact ⟨Condition.noConfusion, fun _ => List.length_eq_zero_iff.1 hat.1⟩
      | write buffer =>
        cases st <;> cases hcode
        exact ⟨fun _ => hat.1, Condition.noConfusion⟩
      | setConnectionFlag c => cases st <;> cases hcode
  refine ⟨fun u hu => ?_, fun u hu => ?_⟩
  · rcases List.mem_cons.1 hu with heq | hu
    · cases heq
      exact hmissing.1 rfl
    · exact hwatched.writers u hu
  · rcases List.mem_cons.1 hu with heq | hu
    · cases heq
      exact .inl (hmissing.2 rfl)
    · exact (hwatched.readers u hu).imp id (notifies_frame hframe)

/-- A notification of all readers, or of all writers. -/
theorem watched_notifyAll {s : State τ N} {t : τ} {k : Point} {cond : Condition} (h : Watched s)
    (hcode : code (s.pc t) s.data = .notifyAll cond k) :
    Watched { s.goto t k with asleep := s.asleep.filter fun p => p.2 ≠ cond } := by
  refine ⟨fun u hu => h.writers u (List.mem_filter.1 hu).1, fun u hu => ?_⟩
  obtain ⟨hmem, hne⟩ := List.mem_filter.1 hu
  have hnot : ¬ Notifies (s.pc t) := by
    apply not_notifies_of_code (q := s.data)
    rintro k' heq
    rw [hcode] at heq
    cases heq
    simp at hne
  exact (h.readers u hmem).imp id (notifies_frame (pc_frame hnot))

/-- The invariant holds in every run whose reads spare the sleeping writers. -/
theorem watched_of_run {q₀ : DataQueue N} {tr : Trace τ} {s : State τ N}
    (hrun : (program N dataCalls).machine.RunWhere SparesWriters (.start q₀ .idle) tr s) : Watched s := by
  induction hrun with
  | start => constructor <;> (intro t ht; cases ht)
  | @step tr s l s' es hrun hok hnext ih =>
    cases l with
    | invoke t p =>
      simp only [Program.machine, Program.next] at hnext
      split at hnext <;> cases hnext
      rename_i hidle
      refine watched_of_subset ih rfl (fun _ h => h) (pc_frame ?_)
      intro hnotifies
      obtain ⟨buffer, n, heq⟩ := hnotifies
      rw [heq] at hidle
      exact absurd hidle.1 (by simp [program])
    | step t =>
      have hassert := assertion_of_run hrun t
      simp only [Program.machine, Program.next] at hnext
      split at hnext
      · generalize hcode : (program N dataCalls).code (s.pc t) s.data = a at hnext
        have hnot : (∀ k, a ≠ .notifyAll .readCondition k) → ¬ Notifies (s.pc t) := by
          intro ha
          apply not_notifies_of_code (q := s.data)
          rw [show code (s.pc t) s.data = a from hcode]
          exact ha
        cases a with
        | stop => cases hnext
        | run q' es' k =>
          cases hnext
          exact watched_run ih hok hcode
        | lock m k =>
          simp only [State.perform] at hnext
          split at hnext <;> cases hnext
          exact watched_of_subset ih rfl (fun _ h => h) (pc_frame (hnot (by simp)))
        | unlock m es' k =>
          cases hnext
          exact watched_of_subset ih rfl (fun _ h => h) (pc_frame (hnot (by simp)))
        | wait cond m k =>
          cases hnext
          exact watched_wait ih hassert hcode
        | notifyAll cond k =>
          cases hnext
          exact watched_notifyAll ih hcode
        | notifyOne cond k =>
          simp only [State.perform] at hnext
          split at hnext <;> cases hnext
          exact watched_of_subset ih rfl (fun _ h => h) (pc_frame (hnot (by simp)))
      · cases hnext
    | signal t u =>
      simp only [Program.machine, Program.next] at hnext
      split at hnext
      · rename_i cond k hcode
        split at hnext <;> cases hnext
        refine watched_of_subset ih rfl (fun _ h => (List.mem_filter.1 h).1) (pc_frame ?_)
        apply not_notifies_of_code (q := s.data)
        rw [show code (s.pc t) s.data = .notifyOne cond k from hcode]
        simp
      · cases hnext
    | wake t =>
      cases hnext
      exact watched_of_subset ih rfl (fun _ h => (List.mem_filter.1 h).1) (fun _ _ => rfl)
    | expire t =>
      obtain ⟨k, hk, hnext⟩ := Option.map_eq_some_iff.1 hnext
      cases hnext
      refine watched_of_subset ih rfl (fun _ h => (List.mem_filter.1 h).1) (pc_frame ?_)
      rintro ⟨buffer, n, heq⟩
      rw [heq] at hk
      cases hk

/-- In every run of a connected queue whose reads take no bytes while a thread is asleep in `write`, no wake-up is
lost. -/
theorem no_lost_wakeup (hN : 1 ≤ N) (tr : Trace τ) (s : State τ N)
    (hrun : (program N dataCalls).machine.RunWhere SparesWriters (.start (.connectedNew N hN) .idle) tr s) :
    NoLostWakeup s := by
  rintro hquiet t c ⟨⟨st, hst⟩, cond, hmem⟩
  have hwatched := watched_of_run hrun
  have hat := (disciplined dataCalls).asleep_at hrun hmem
  have hnone : ¬ ∃ u, Notifies (s.pc u) := by
    -- a thread that is about to notify is inside the mutex
    rintro ⟨u, buffer, n, hu⟩
    have howner := (disciplined dataCalls).owner_iff rfl hrun u ()
    rw [hu, hquiet.free] at howner
    cases howner.2 rfl
  rw [hst] at hat
  refine ⟨?_, fun hreads => ?_⟩
  · rintro buffer rfl
    cases st <;> cases hat
    rw [availableWriteSize, ByteRing.availableWriteSize_eq]
    exact hwatched.writers t hmem
  · have hcond : cond = .readCondition := by
      cases c with
      | read _ | readWithTimeout _ _ => cases st <;> cases hat; rfl
      | write _ | setConnectionFlag _ => cases hreads
    subst hcond
    have hnil := (hwatched.readers t hmem).resolve_right hnone
    rw [availableReadSize, ByteRing.availableReadSize_eq, hnil, List.length_nil]

/-- A state where the only call under way is one that is asleep is quiet. -/
private theorem quiet_of_asleep {s : State Bool N} {c : Call} {cond : Condition} (hfree : s.owner () = none)
    (hreader : s.pc false = .idle) (hwriter : s.pc true = .busy c .relock) (hasleep : (true, cond) ∈ s.asleep) :
    Quiet s ∧ AsleepIn s true c := by
  have hin : AsleepIn s true c := ⟨⟨.relock, hwriter⟩, cond, hasleep⟩
  refine ⟨⟨hfree, fun t c' ht => ?_⟩, hin⟩
  cases t with
  | false =>
    rw [hreader] at ht
    cases ht
  | true =>
    rw [hwriter] at ht
    cases ht
    exact hin

/-- The schedule of a lost wake-up on a queue with room for one byte: the reader begins, notifies nobody and falls
asleep; the writer puts in a byte and notifies the reader, begins again and falls asleep, as the buffer is full; the
reader takes the byte and returns. -/
def lostWakeup : List (Label Bool Point) :=
  List.flatten [[.invoke false (.busy (.read 1) .enter)], List.replicate 5 (.step false),
    [.invoke true (.busy (.write [7]) .enter)], List.replicate 6 (.step true),
    [.invoke true (.busy (.write [8]) .enter)], List.replicate 6 (.step true), List.replicate 5 (.step false)]

/-- A wake-up is lost: the writer sleeps in `write` although there is room, and no thread is on the way to wake it. -/
theorem lost_wakeup : ¬ ∀ (tr : Trace Bool) (s : State Bool 2),
    (program 2 dataCalls).machine.Run (.start (.connectedNew 2 (by decide)) .idle) tr s → NoLostWakeup s := by
  intro hall
  have h : (((program 2 dataCalls).machine.exec (.start (.connectedNew 2 (by decide)) .idle) lostWakeup).any
      fun r => decide (r.1.owner () = none ∧ r.1.pc false = .idle ∧ r.1.pc true = .busy (.write [8]) .relock ∧
        (true, .writeCondition) ∈ r.1.asleep ∧ r.1.data.availableWriteSize = 1)) = true := by decide +kernel
  obtain ⟨⟨s, tr⟩, hexec, hs⟩ := (Option.any_eq_true _ _).1 h
  obtain ⟨hfree, hreader, hwriter, hasleep, hroom⟩ := of_decide_eq_true hs
  obtain ⟨hquiet, hin⟩ := quiet_of_asleep hfree hreader hwriter hasleep
  have hfull := (hall tr s (Machine.RunWhere.of_exec hexec) hquiet true _ hin).1 [8] rfl
  simp only at hroom
  omega

/-- A writer asleep on a full buffer is woken by a read that finds its bytes at once, and writes; when it falls asleep
again the buffer is full again. -/
theorem no_lost_wakeup_two : ∃ tr s,
    (program 2 dataCalls).machine.RunWhere SparesWriters (.start (.connectedNew 2 (by decide)) .idle) tr s ∧
      (Quiet s ∧ AsleepIn s true (.write [9])) ∧ NoLostWakeup s ∧ s.data.availableWriteSize = 0 := by
  have h : ((((program 2 dataCalls).machine.restrict SparesWriters).exec
      (.start (.connectedNew 2 (by decide)) .idle)
      (List.flatten [[.invoke true (.busy (.write [7]) .enter)], List.replicate 6 (.step true),
        [.invoke true (.busy (.write [8]) .enter)], List.replicate 6 (.step true),
        [.invoke false (.busy (.read 1) .enter)], List.replicate 5 (.step false), List.replicate 6 (.step true),
        [.invoke true (.busy (.write [9]) .enter)], List.replicate 6 (.step true)])).any fun r =>
      decide (r.1.owner () = none ∧ r.1.pc false = .idle ∧ r.1.pc true = .busy (.write [9]) .relock ∧
        (true, .writeCondition) ∈ r.1.asleep)) = true := by decide +kernel
  obtain ⟨⟨s, tr⟩, hexec, hs⟩ := (Option.any_eq_true _ _).1 h
  obtain ⟨hfree, hreader, hwriter, hasleep⟩ := of_decide_eq_true hs
  have hasleepIn := quiet_of_asleep hfree hreader hwriter hasleep
  have hrun := Machine.RunWhere.of_restrict (Machine.RunWhere.of_exec hexec)
  have hspared := no_lost_wakeup (by decide) tr s hrun
  obtain ⟨hquiet, hin⟩ := id hasleepIn
  exact ⟨tr, s, hrun, hasleepIn, hspared, (hspared hquiet true _ hin).1 [9] rfl⟩

end DataQueue

end Cppio
