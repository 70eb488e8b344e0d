import Cppio.DataQueue

/-!
# What a call of the queue has done

Under every schedule the bytes taken out of a queue are, in the order of the mutex, a prefix of the bytes put in
(`delivered_isPrefix`), and a call that returns has done to the buffer just what its result says (`reports_of_run`).

The second fact is an assertion at every point of the methods (`At`) in the sense of `Monitor.Disciplined.assertion`:
it is about the buffer and about what the call did so far, and it is kept by the other threads because the buffer
changes only under the mutex.
-/

namespace Cppio

namespace DataQueue

variable {N : Nat} {calls : Call → Bool}

/-! ### The effect of one step -/

/-- The number of bytes a reading call asks for. -/
def Call.buflen : Call → Option Nat
  | .read buflen | .readWithTimeout buflen _ => some buflen
  | _ => none

/-- What a step at a point does to the queue, with the events it emits. -/
inductive Effect (p : Point) (q : DataQueue N) : DataQueue N → List Event → Prop
  | copyOut {c buflen} : p = .busy c .copy → c.buflen = some buflen →
      Effect p q { q with buffer := q.buffer.read buflen } [.took (q.buffer.fifo.items.take buflen)]
  | copyIn {buffer} : p = .busy (.write buffer) .copy →
      Effect p q { q with buffer := q.buffer.write buffer } [.put (buffer.take q.buffer.fifo.room)]
  | flag {c} : p = .busy (.setConnectionFlag c) .storeFlag → Effect p q { q with connected := c } []
  | ret {c r} : p = .busy c (.leave r) → Effect p q q [.ret c r]
  | silent : Effect p q q []

theorem take_count (buffer : List Byte) (q : DataQueue N) :
    buffer.take (q.buffer.ring.write buffer).count = buffer.take q.buffer.fifo.room := by
  rw [ByteRing.write_count, Nat.min_comm, ← List.take_eq_take_min]

theorem effect_of_after {p k : Point} {q q' : DataQueue N} {es : List Event}
    (h : (code p q).after q = some (k, q', es)) : Effect p q q' es := by
  cases p with
  | idle => cases h
  | busy c st =>
    cases c with
    | read buflen =>
      cases st with
      | copy =>
        cases h
        rw [ByteRing.read_bytes]
        exact .copyOut rfl rfl
      | leave r => cases h; exact .ret rfl
      | _ => cases h <;> exact .silent
    | readWithTimeout buflen timeout =>
      cases st with
      | copy =>
        cases h
        rw [ByteRing.read_bytes]
        exact .copyOut rfl rfl
      | leave r => cases h; exact .ret rfl
      | _ => cases h <;> exact .silent
    | write buffer =>
      cases st with
      | copy =>
        cases h
        rw [take_count]
        exact .copyIn rfl
      | leave r => cases h; exact .ret rfl
      | _ => cases h <;> exact .silent
    | setConnectionFlag c =>
      cases st with
      | storeFlag => cases h; exact .flag rfl
      | leave r => cases h; exact .ret rfl
      | _ => cases h <;> exact .silent

/-- A thread that does not hold the mutex does not touch the buffer, and sets the flag only in a call that says so. -/
theorem effect_unlocked {p : Point} {q q' : DataQueue N} {es : List Event} (h : Effect p q q' es)
    (hp : ¬ holds p ()) : q'.buffer = q.buffer ∧
      (q'.connected = q.connected ∨ p = .busy (.setConnectionFlag q'.connected) .storeFlag) := by
  cases h with
  | @copyOut c buflen hp' hc =>
    subst hp'
    cases c with
    | read _ | readWithTimeout _ _ => exact absurd rfl hp
    | write _ | setConnectionFlag _ => cases hc
  | copyIn hp' =>
    subst hp'
    exact absurd rfl hp
  | flag hp' => exact ⟨rfl, .inr hp'⟩
  | ret hp' => exact ⟨rfl, .inl rfl⟩
  | silent => exact ⟨rfl, .inl rfl⟩

/-! ### Assertions -/

/-- What a call waits for: bytes to read, or room to write. -/
def Call.available : Call → DataQueue N → Nat
  | .read _, q | .readWithTimeout _ _, q => q.buffer.fifo.items.length
  | .write _, q => q.buffer.fifo.room
  | .setConnectionFlag _, _ => 0

/-- The accesses `h` to the buffer by a call that returns `r` are those its result reports. -/
def Accounts (N : Nat) (c : Call) (r : Result) (h : List Event) : Prop :=
  match c, r with
  | .read buflen, .bytes bs | .readWithTimeout buflen _, .bytes bs =>
    bs.length ≤ buflen ∧ bs.length < N ∧ (0 < buflen → bs ≠ []) ∧ h = [.took bs]
  | .write buffer, .count n => n ≤ buffer.length ∧ (buffer ≠ [] → 0 < n) ∧ h = [.put (buffer.take n)]
  | .write buffer, .error .eTooBigBuffer => N ≤ buffer.length ∧ h = []
  | .readWithTimeout _ _, .error .eTimeout => h = []
  | .read _, .error .eConnectionLost | .readWithTimeout _ _, .error .eConnectionLost
  | .write _, .error .eConnectionLost => h = []
  | .setConnectionFlag _, .void => h = []
  | _, _ => False

/-- A call that returns `r` has accounted for its accesses; and when it reports a lost connection, the flag says so
(unless calls that set the flag interfere) and there is nothing left to wait for. -/
def Settled (calls : Call → Bool) (c : Call) (r : Result) (h : List Event) (q : DataQueue N) : Prop :=
  Accounts N c r h ∧ (r = .error .eConnectionLost →
    c.available q = 0 ∧ (calls (.setConnectionFlag true) = false → q.connected = false))

/-- The assertion at a point of a call. -/
def At (calls : Call → Bool) (c : Call) (st : Stage) (h : List Event) (q : DataQueue N) : Prop :=
  match st with
  | .leave r => Settled calls c r h q
  | .notifyReaders n => Settled calls c (.count n) h q
  | .connected | .wait | .lost => c.available q = 0 ∧ h = []
  | .recheckConnected => c.available q = 0 ∧ (∃ buflen, c = .read buflen) ∧ h = []
  | .recheck => ((∃ buflen, c = .read buflen) ∨ 0 < c.available q) ∧ h = []
  | .copy => 0 < c.available q ∧ h = []
  | _ => h = []

def Assertion (calls : Call → Bool) : Point → List Event → DataQueue N → Prop
  | .idle, _, _ => True
  | .busy c st, h, q => calls c = true ∧ At calls c st h q

theorem assertion_act {p k : Point} {q q' : DataQueue N} {h es : List Event}
    (hafter : (code p q).after q = some (k, q', es)) (hA : Assertion calls p h q) :
    Assertion calls k (h ++ es) q' := by
  cases p with
  | idle => cases hafter
  | busy c st =>
    obtain ⟨hc, hat⟩ := hA
    have hsize := q.buffer.size_eq
    have hbounded : q.buffer.fifo.items ≠ [] → q.buffer.fifo.items.length < N := by
      intro hne
      have hpos := List.length_pos_iff.2 hne
      have hle := q.buffer.fifo.bounded
      omega
    cases c with
    | read buflen | readWithTimeout buflen timeout =>
      cases st <;> cases hafter <;> first | trivial | refine ⟨hc, ?_⟩
      all_goals
        simp only [availableReadSize, ByteRing.availableReadSize_eq, ByteRing.read_bytes, List.append_nil] at hat ⊢
      all_goals try split_ifs
      all_goals simp_all [At, Settled, Accounts, Call.available, Nat.pos_iff_ne_zero]
    | write buffer =>
      cases st <;> cases hafter <;> first | trivial | refine ⟨hc, ?_⟩
      all_goals
        simp only [availableWriteSize, ByteRing.availableWriteSize_eq, ByteRing.write_count, List.append_nil] at hat ⊢
      all_goals try split_ifs
      all_goals simp_all [At, Settled, Accounts, Call.available, Nat.pos_iff_ne_zero]
    | setConnectionFlag c =>
      cases st <;> cases hafter <;> first | trivial | refine ⟨hc, ?_⟩
      all_goals try split_ifs
      all_goals simp_all [At, Settled, Accounts]

/-- Without the mutex nothing is asserted of the queue. -/
theorem assertion_unlocked {p : Point} {q q' : DataQueue N} {h : List Event} (hp : ¬ holds p ())
    (hA : Assertion calls p h q) : Assertion calls p h q' := by
  cases p with
  | idle => trivial
  | busy c st =>
    refine ⟨hA.1, ?_⟩
    have hat := hA.2
    cases c with
    | setConnectionFlag c =>
      cases st with
      | leave r => cases r <;> first | exact hat.1.elim | exact ⟨hat.1, Result.noConfusion⟩
      | notifyReaders n => exact hat.1.elim
      | _ => exact hat
    | _ => cases st <;> first | exact hat | exact absurd rfl hp

/-- Of the flag only that it is false is asserted. -/
theorem assertion_flag {p : Point} {q q' : DataQueue N} {h : List Event} (hbuffer : q'.buffer = q.buffer)
    (hflag : calls (.setConnectionFlag true) = false → q.connected = false → q'.connected = false)
    (hA : Assertion calls p h q) : Assertion calls p h q' := by
  cases p with
  | idle => trivial
  | busy c st =>
    refine ⟨hA.1, ?_⟩
    have hat := hA.2
    have havailable : c.available q' = c.available q := by
      cases c <;> simp only [Call.available, hbuffer]
    have hsettled : ∀ r, Settled calls c r h q → Settled calls c r h q' := by
      rintro r ⟨haccounts, hlost⟩
      refine ⟨haccounts, fun hr => ⟨?_, fun hcalls => hflag hcalls ((hlost hr).2 hcalls)⟩⟩
      rw [havailable]
      exact (hlost hr).1
    cases st <;> simp only [At, havailable] at hat ⊢ <;> first | exact hat | exact hsettled _ hat

theorem assertion_frame {p k p' : Point} {q q' : DataQueue N} {h h' es : List Event}
    (hafter : (code p q).after q = some (k, q', es)) (hA : Assertion calls p h q)
    (hother : ∀ m, holds p m → ¬ holds p' m) (hA' : Assertion calls p' h' q) : Assertion calls p' h' q' := by
  by_cases hp : holds p ()
  · exact assertion_unlocked (hother () hp) hA'
  · obtain ⟨hbuffer, hflag⟩ := effect_unlocked (effect_of_after hafter) hp
    refine assertion_flag hbuffer (fun hcalls hfalse => ?_) hA'
    rcases hflag with hsame | hstore
    · rw [hsame, hfalse]
    · -- the store is part of an allowed call, so it does not set the flag
      subst hstore
      cases hconnected : q'.connected with
      | false => rfl
      | true =>
        have hcall := hA.1
        rw [hconnected, hcalls] at hcall
        cases hcall

/-! ### Runs -/

section Runs

open Monitor

variable {τ : Type}

/-- The bytes a step put into the buffer. -/
def putBytes : Obs Point Event → List Byte
  | .event (.put bs) => bs
  | _ => []

/-- The bytes a step took out of the buffer. -/
def tookBytes : Obs Point Event → List Byte
  | .event (.took bs) => bs
  | _ => []

/-- All bytes accepted by writes, in the order of the mutex. -/
def accepted (tr : Trace τ) : List Byte := tr.flatMap fun x => putBytes x.2

/-- All bytes delivered by reads, in the order of the mutex. -/
def delivered (tr : Trace τ) : List Byte := tr.flatMap fun x => tookBytes x.2

theorem accepted_append (tr tr' : Trace τ) : accepted (tr ++ tr') = accepted tr ++ accepted tr' :=
  List.flatMap_append ..

theorem delivered_append (tr tr' : Trace τ) : delivered (tr ++ tr') = delivered tr ++ delivered tr' :=
  List.flatMap_append ..

variable [DecidableEq τ] {ok : State τ N → Label τ Point → Prop} {q₀ : DataQueue N} {s : State τ N} {tr : Trace τ}

/-- In every run the assertion at its point holds of every thread. -/
theorem assertion_of_run (hrun : (program N calls).machine.RunWhere ok (.start q₀ .idle) tr s) :
    ∀ t, Assertion calls (s.pc t) (own t tr) s.data := by
  have hstart : Assertion calls .idle [] q₀ := trivial
  refine (disciplined calls).assertion rfl hstart ?_ ?_ ?_ ?_ hrun
  · intro p p' h q _ hentry _
    cases p' with
    | idle => trivial
    | busy c st =>
      cases st with
      | enter => exact ⟨hentry, rfl⟩
      | _ => cases hentry
  · exact fun p h q k q' es hafter hA => assertion_act hafter hA
  · intro p h q k hk hA
    cases p with
    | idle => cases hk
    | busy c st =>
      cases c <;> cases st <;> cases hk
      exact hA
  · exact fun p h q k q' es hafter hA p' h' hother hA' => assertion_frame hafter hA hother hA'

/-- The buffer always holds what was accepted and not yet delivered. -/
theorem conserved_of_run (hq₀ : q₀.buffer.fifo = .empty)
    (hrun : (program N calls).machine.RunWhere ok (.start q₀ .idle) tr s) :
    s.data.buffer.fifo.Conserved (accepted tr) (delivered tr) := by
  refine hrun.invariant (fun tr s => s.data.buffer.fifo.Conserved (accepted tr) (delivered tr)) ?_ ?_
  · show q₀.buffer.fifo.Conserved [] []
    rw [hq₀]
    exact .empty
  · intro tr s l s' es hinv _ hnext
    rw [accepted_append, delivered_append]
    rcases Program.data_cases hnext with ⟨hdata, rfl⟩ | ⟨t, p, -, hdata, rfl⟩ | ⟨t, k, es', hafter, rfl⟩
    · rw [hdata]
      simpa [accepted, delivered] using hinv
    · rw [hdata]
      simpa [accepted, delivered, putBytes, tookBytes] using hinv
    · generalize s'.data = q' at hafter ⊢
      cases effect_of_after hafter with
      | @copyOut c buflen _ _ => simpa [accepted, delivered, putBytes, tookBytes] using hinv.pop buflen
      | @copyIn buffer _ => simpa [accepted, delivered, putBytes, tookBytes] using hinv.push buffer
      | flag _ => simpa [accepted, delivered] using hinv
      | ret _ => simpa [accepted, delivered, putBytes, tookBytes] using hinv
      | silent => simpa [accepted, delivered] using hinv

/-- What was delivered is at all times a prefix of what was accepted. -/
theorem delivered_isPrefix (hq₀ : q₀.buffer.fifo = .empty)
    (hrun : (program N calls).machine.RunWhere ok (.start q₀ .idle) tr s) : delivered tr <+: accepted tr :=
  (conserved_of_run hq₀ hrun).isPrefix

/-! ### Calls that return -/

/-- The point where the call began that a point belongs to. -/
def callOf : Point → Option Point
  | .idle => none
  | .busy c _ => some (.busy c .enter)

theorem callOf_after {p k : Point} {q q' : DataQueue N} {es : List Event}
    (hafter : (code p q).after q = some (k, q', es)) : callOf k = none ∨ callOf k = callOf p := by
  cases p with
  | idle => cases hafter
  | busy c st => cases c <;> cases st <;> cases hafter <;> first | exact .inl rfl | exact .inr rfl

/-- A thread outside every call stays outside, and shows nothing, until it begins one. -/
theorem idle_of_next {s s' : State τ N} {l : Label τ Point} {es : Trace τ}
    (hnext : (program N calls).next s l = some (s', es)) {t : τ} (ht : s.pc t = .idle)
    (hl : ∀ p, l ≠ .invoke t p) : s'.pc t = .idle ∧ ∀ x ∈ es, x.1 ≠ t := by
  rcases Program.thread_cases hnext t with ⟨hpc, hne⟩ | ⟨p, hp, -⟩ | ⟨k, es', hafter, -⟩ | ⟨k, hk, -⟩
  · exact ⟨by rw [hpc, ht], hne⟩
  · exact absurd hp (hl p)
  · rw [ht] at hafter
    cases hafter
  · rw [ht] at hk
    cases hk

/-- A step leaves every thread in its call, or it is the return of the call. -/
theorem busy_of_next {s s' : State τ N} {l : Label τ Point} {es : Trace τ}
    (hnext : (program N calls).next s l = some (s', es)) {t : τ} {c : Call} {st : Stage} (ht : s.pc t = .busy c st) :
    (∃ st', s'.pc t = .busy c st') ∨
      ∃ r, st = .leave r ∧ s'.pc t = .idle ∧ s'.data = s.data ∧ es = [(t, .event (.ret c r))] := by
  rcases Program.thread_cases hnext t with ⟨hpc, -⟩ | ⟨p, -, hidle, -⟩ | ⟨k, es', hafter, hpc, rfl⟩ | ⟨k, hk, hpc, -⟩
  · exact .inl ⟨st, by rw [hpc, ht]⟩
  · rw [ht] at hidle
    cases hidle
  · rw [ht] at hafter
    generalize s'.data = q' at hafter ⊢
    cases st with
    | leave r =>
      right
      cases c <;> cases hafter <;> exact ⟨r, rfl, hpc, rfl, rfl⟩
    | _ =>
      left
      rw [hpc]
      cases c <;> cases hafter <;> exact ⟨_, rfl⟩
  · rw [ht] at hk
    left
    rw [hpc]
    cases c <;> cases st <;> cases hk
    exact ⟨_, rfl⟩

/-- A thread inside a call has begun it. -/
theorem call_mem (hrun : (program N calls).machine.RunWhere ok (.start q₀ .idle) tr s) {t : τ} {c : Call}
    {st : Stage} (ht : s.pc t = .busy c st) : (t, .call (.busy c .enter)) ∈ tr := by
  refine Program.call_mem callOf rfl ?_ ?_ ?_ hrun t _ (by rw [ht]; rfl)
  · intro p c' hentry hcall
    cases p with
    | idle => cases hcall
    | busy c st =>
      cases st with
      | enter => cases hcall; rfl
      | _ => cases hentry
  · exact fun _ _ _ _ _ hafter => callOf_after hafter
  · intro p k hk
    cases p with
    | idle => cases hk
    | busy c st => cases c <;> cases st <;> cases hk; rfl

/-- The flag is cleared only by a call that says so. -/
theorem clearing_call_mem (hq₀ : q₀.connected = true)
    (hrun : (program N calls).machine.RunWhere ok (.start q₀ .idle) tr s) (hfalse : s.data.connected = false) :
    ∃ u, (u, .call (.busy (.setConnectionFlag false) .enter)) ∈ tr := by
  induction hrun with
  | start =>
    rw [show (Monitor.State.start q₀ .idle : State τ N).data = q₀ from rfl, hq₀] at hfalse
    cases hfalse
  | @step tr s l s' es hrun _ hnext ih =>
    -- if the flag was clear before the step, the call that cleared it is known
    have hkeep : s.data.connected = false →
        ∃ u, (u, .call (.busy (.setConnectionFlag false) .enter)) ∈ tr ++ es := by
      intro h
      obtain ⟨u, hu⟩ := ih h
      exact ⟨u, List.mem_append_left _ hu⟩
    rcases Program.data_cases hnext with ⟨hdata, -⟩ | ⟨t, p, -, hdata, -⟩ | ⟨t, k, es', hafter, -⟩
    · exact hkeep (hdata ▸ hfalse)
    · exact hkeep (hdata ▸ hfalse)
    · generalize s'.data = q' at hafter hfalse
      cases effect_of_after hafter with
      | copyOut _ _ => exact hkeep hfalse
      | copyIn _ => exact hkeep hfalse
      | flag hp =>
        subst hfalse
        exact ⟨t, List.mem_append_left _ (call_mem hrun hp)⟩
      | ret _ => exact hkeep hfalse
      | silent => exact hkeep hfalse

/-- A queue on which nobody calls `setConnectionFlag` stays connected. -/
theorem connected_of_run (hq₀ : q₀.connected = true)
    (hrun : (program N dataCalls).machine.RunWhere ok (.start q₀ .idle) tr s) : s.data.connected = true := by
  by_contra hfalse
  obtain ⟨u, hu⟩ := clearing_call_mem hq₀ hrun (Bool.eq_false_iff.2 hfalse)
  have hentry : dataCalls (.setConnectionFlag false) = true := Program.entry_of_call hrun hu
  cases hentry

/-- A call returns in a step of its own, by a thread that is inside it. -/
theorem return_of_next {s s' : State τ N} {l : Label τ Point} {es : Trace τ} {t : τ} {c : Call} {r : Result}
    (hnext : (program N calls).next s l = some (s', es)) (hmem : (t, .event (.ret c r)) ∈ es) :
    es = [(t, .event (.ret c r))] ∧ s.pc t ≠ .idle := by
  rcases Program.data_cases hnext with ⟨-, rfl⟩ | ⟨u, p, -, -, rfl⟩ | ⟨u, k, es', hafter, rfl⟩
  · cases hmem
  · simp at hmem
  · have hbusy : s.pc u ≠ .idle := by
      intro hidle
      rw [hidle] at hafter
      cases hafter
    generalize s'.data = q' at hafter
    cases effect_of_after hafter with
    | copyOut _ _ => simp at hmem
    | copyIn _ => simp at hmem
    | flag _ => simp at hmem
    | silent => simp at hmem
    | ret _ =>
      simp only [List.map_cons, List.map_nil, List.mem_singleton, Prod.mk.injEq, Obs.event.injEq,
        Event.ret.injEq] at hmem
      obtain ⟨rfl, rfl, rfl⟩ := hmem
      exact ⟨rfl, hbusy⟩

/-- A thread stays in the call it is in, or outside every call. -/
def SameCall (t : τ) (s s' : State τ N) : Prop :=
  (s.pc t = .idle → s'.pc t = .idle) ∧ ∀ c st, s.pc t = .busy c st → ∃ st', s'.pc t = .busy c st'

section

omit [DecidableEq τ]

theorem SameCall.of_eq {t : τ} {s s' : State τ N} (h : s'.pc t = s.pc t) : SameCall t s s' :=
  ⟨h.trans, fun _ st hst => ⟨st, h.trans hst⟩⟩

theorem SameCall.idle_iff {t : τ} {s s' : State τ N} (h : SameCall t s s') : s'.pc t = .idle ↔ s.pc t = .idle := by
  refine ⟨fun hidle => ?_, h.1⟩
  cases hpc : s.pc t with
  | idle => rfl
  | busy c st =>
    obtain ⟨st', hst'⟩ := h.2 c st hpc
    rw [hidle] at hst'
    cases hst'

theorem SameCall.busy {t : τ} {s s' : State τ N} (h : SameCall t s s') {c : Call} {st' : Stage}
    (hbusy : s'.pc t = .busy c st') : ∃ st, s.pc t = .busy c st := by
  cases hpc : s.pc t with
  | idle =>
    rw [h.1 hpc] at hbusy
    cases hbusy
  | busy c' st =>
    obtain ⟨st'', hst''⟩ := h.2 c' st hpc
    rw [hst''] at hbusy
    cases hbusy
    exact ⟨st, rfl⟩

end

/-- A step that begins no call is silent, or moves bytes out of or into the buffer, or is the return of a call. -/
theorem step_cases {s s' : State τ N} {l : Label τ Point} {es : Trace τ}
    (hnext : (program N calls).next s l = some (s', es)) (hl : ∀ t p, l ≠ .invoke t p) :
    (es = [] ∧ ∀ t, SameCall t s s') ∨
    (∃ t c buflen, s.pc t = .busy c .copy ∧ c.buflen = some buflen ∧
      es = [(t, .event (.took (s.data.buffer.fifo.items.take buflen)))] ∧ ∀ u, SameCall u s s') ∨
    (∃ t buffer, s.pc t = .busy (.write buffer) .copy ∧
      es = [(t, .event (.put (buffer.take s.data.buffer.fifo.room)))] ∧ ∀ u, SameCall u s s') ∨
    ∃ t c r, s.pc t = .busy c (.leave r) ∧ es = [(t, .event (.ret c r))] ∧ s'.pc t = .idle ∧
      ∀ u, u ≠ t → SameCall u s s' := by
  have hsame : (∀ t c r, es ≠ [(t, .event (.ret c r))]) → ∀ t, SameCall t s s' := by
    intro hes t
    refine ⟨fun hidle => (idle_of_next hnext hidle (hl t)).1, fun c st hbusy => ?_⟩
    rcases busy_of_next hnext hbusy with h | ⟨r, -, -, -, h⟩
    · exact h
    · exact absurd h (hes t c r)
  rcases Program.data_cases hnext with ⟨-, rfl⟩ | ⟨t, p, -, -, rfl⟩ | ⟨t, k, es', hafter, rfl⟩
  · exact .inl ⟨rfl, hsame (by simp)⟩
  · exact absurd (Program.invoke_of_call hnext (List.mem_singleton.2 rfl)).1 (hl t p)
  · generalize s'.data = q' at hafter
    cases effect_of_after hafter with
    | copyOut hp hbuflen => exact .inr (.inl ⟨t, _, _, hp, hbuflen, rfl, hsame (by simp)⟩)
    | copyIn hp => exact .inr (.inr (.inl ⟨t, _, hp, rfl, hsame (by simp)⟩))
    | flag _ => exact .inl ⟨rfl, hsame (by simp)⟩
    | silent => exact .inl ⟨rfl, hsame (by simp)⟩
    | @ret c r hp =>
      refine .inr (.inr (.inr ⟨t, c, r, hp, rfl, ?_, fun u hu => ?_⟩))
      · rcases Program.thread_cases hnext t with ⟨-, hne⟩ | ⟨p, hp', -⟩ | ⟨k', es', hafter', hpc, -⟩ | ⟨k', hk, -⟩
        · exact absurd rfl (hne _ (List.mem_singleton.2 rfl))
        · exact absurd hp' (hl t p)
        · rw [hp] at hafter'
          generalize s'.data = q'' at hafter'
          rw [hpc]
          cases c <;> cases hafter' <;> rfl
        · rw [hp] at hk
          cases c <;> cases hk
      · rcases Program.thread_cases hnext u with ⟨hpc, -⟩ | ⟨p, hp', -⟩ | ⟨k', es', -, -, hes⟩ | ⟨k', -, -, hes⟩
        · exact .of_eq hpc
        · exact absurd hp' (hl u p)
        · have hmem : (t, .event (.ret c r)) ∈ (es'.map fun e => (u, .event e) : Trace τ) := by
            rw [← hes]
            simp
          obtain ⟨e, -, heq⟩ := List.mem_map.1 hmem
          exact absurd (congrArg Prod.fst heq) hu
        · simp at hes

/-- What may be seen after `past` when the threads only make the calls in `calls`: a call that returns has accounted
for its accesses, and one that reports a lost connection does so after the flag was cleared, a reading call only
when everything accepted was delivered. -/
def Reports (N : Nat) (calls : Call → Bool) (past : Trace τ) : τ × Obs Point Event → Prop
  | (t, .event (.ret c r)) => calls c = true ∧ Accounts N c r (own t past) ∧ (r = .error .eConnectionLost →
      (calls (.setConnectionFlag true) = false →
        ∃ u, (u, .call (.busy (.setConnectionFlag false) .enter)) ∈ past) ∧
      (c.buflen.isSome → delivered past = accepted past))
  | _ => True

/-- In every run every call that returns has done what its result says. -/
theorem reports_of_run (hq₀ : q₀.buffer.fifo = .empty) (hconnected : q₀.connected = true)
    (hrun : (program N calls).machine.RunWhere ok (.start q₀ .idle) tr s) : Throughout (Reports N calls) tr := by
  induction hrun with
  | start => exact .nil
  | @step tr s l s' es hrun _ hnext ih =>
    rcases Program.data_cases hnext with ⟨-, rfl⟩ | ⟨t, p, -, -, rfl⟩ | ⟨t, k, es', hafter, rfl⟩
    · rwa [List.append_nil]
    · exact ih.snoc trivial
    · have hassert := assertion_of_run hrun t
      generalize s'.data = q' at hafter
      cases effect_of_after hafter with
      | copyOut _ _ => exact ih.snoc trivial
      | copyIn _ => exact ih.snoc trivial
      | flag _ => simpa using ih
      | silent => simpa using ih
      | @ret c r hp =>
        rw [hp] at hassert
        obtain ⟨hcall, haccounts, hlost⟩ := hassert
        refine ih.snoc ⟨hcall, haccounts, fun hr => ⟨fun hcalls => ?_, fun hreads => ?_⟩⟩
        · exact clearing_call_mem hconnected hrun ((hlost hr).2 hcalls)
        · -- nothing is left in the buffer, so everything accepted was delivered
          have hconserved := conserved_of_run hq₀ hrun
          have hempty : s.data.buffer.fifo.items.length = 0 := by
            cases c with
            | read _ | readWithTimeout _ _ => exact (hlost hr).1
            | write _ | setConnectionFlag _ => cases hreads
          exact hconserved.drained (List.length_eq_zero_iff.1 hempty)

end Runs

end DataQueue

end Cppio
