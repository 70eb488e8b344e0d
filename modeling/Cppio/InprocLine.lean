import Cppio.DataQueueSafety

/-!
# In-process connections

Two `InprocLine`s joined by `waitConnection` share two queues: what one end writes, the other reads.  Threads of any
number call `read`, `write` and `setOption` on both ends, and an end may be destroyed: its destructor clears the
connection flag of the queue it writes to and then of the queue it reads from.

The queues are named after the end that writes to them.  A connection projects to each of its queues
(`run_onQueue`), so in each direction it is a lossless ordered stream of bytes (`lossless_streams`).
-/

namespace Cppio

/-- The ends of a connection. -/
inductive End where
  | client
  | server
deriving DecidableEq, Repr

def End.peer : End → End
  | .client => .server
  | .server => .client

theorem End.peer_ne (e : End) : e.peer ≠ e := by
  cases e <;> decide

theorem End.eq_peer {e e' : End} (h : e' ≠ e) : e' = e.peer := by
  cases e <;> cases e' <;> first | rfl | exact absurd rfl h

/-- `cppio::LineOption`. -/
inductive LineOption where
  | receiveTimeout
  | sendTimeout
deriving DecidableEq, Repr

/-- `cppio::UnsupportedOption`, with its text. -/
structure UnsupportedOption where
  what : String
deriving DecidableEq, Repr

namespace InprocLine

/-- The size of the queues of a connection. -/
def queueSize : Nat := 65536

/-- The call of `InprocLine::read` on the incoming queue. -/
def read (readTimeout : Int) (buflen : Nat) : DataQueue.Call :=
  if 0 < readTimeout then .readWithTimeout buflen readTimeout else .read buflen

/-- The call of `InprocLine::write` on the outgoing queue. -/
def write (buffer : List Byte) : DataQueue.Call := .write buffer

/-- `InprocLine::setOption`: the new value of `m_readTimeout`. -/
def setOption (option : LineOption) (data : UInt32) : Except UnsupportedOption Int :=
  match option with
  | .receiveTimeout => .ok (toInt32 data.toNat)
  | .sendTimeout => .error ⟨""⟩

end InprocLine

/-- Two joined lines, with their threads `τ`. -/
structure Connection (τ : Type) (N : Nat) where
  /-- The queue an end writes to. -/
  queue : End → DataQueue.State τ N
  readTimeout : End → Int
  /-- A thread in the destructor of an end that has still to clear the flag of the incoming queue. -/
  destroying : τ → Option End

namespace Connection

open Monitor

variable {τ : Type} {N : Nat}

/-- What happens next: a thread begins a call on an end, a destructor goes on with the incoming queue, or something
happens at a queue. -/
inductive Label (τ : Type) where
  | read (t : τ) (e : End) (buflen : Nat)
  | write (t : τ) (e : End) (buffer : List Byte)
  | setOption (t : τ) (e : End) (option : LineOption) (data : UInt32)
  | destroy (t : τ) (e : End)
  | disconnectIn (t : τ)
  | queue (e : End) (l : Monitor.Label τ DataQueue.Point)

/-- The beginning of a destructor, or what is seen at a queue. -/
inductive Event (τ : Type) where
  | destroyed (t : τ) (e : End)
  | queue (e : End) (x : τ × Obs DataQueue.Point DataQueue.Event)
deriving DecidableEq

abbrev Trace (τ : Type) := List (Event τ)

/-- What is seen of the queue an end writes to. -/
def onQueue (e : End) (tr : Trace τ) : DataQueue.Trace τ :=
  tr.filterMap fun
    | .queue e' x => if e' = e then some x else none
    | .destroyed _ _ => none

theorem onQueue_append (e : End) (tr tr' : Trace τ) : onQueue e (tr ++ tr') = onQueue e tr ++ onQueue e tr' :=
  List.filterMap_append ..

theorem onQueue_self (e : End) (es : DataQueue.Trace τ) : onQueue e (es.map (.queue e)) = es := by
  simp [onQueue, List.filterMap_map]

theorem onQueue_of_ne {e e' : End} (h : e' ≠ e) (es : DataQueue.Trace τ) : onQueue e (es.map (.queue e')) = [] := by
  simp [onQueue, List.filterMap_map, h]

theorem onQueue_split {past future : Trace τ} {e : End} {x : τ × Obs DataQueue.Point DataQueue.Event} :
    onQueue e (past ++ .queue e x :: future) = onQueue e past ++ x :: onQueue e future := by
  rw [onQueue_append]
  simp [onQueue]

theorem onQueue_destroyed {e : End} {pre : Trace τ} (h : pre = [] ∨ ∃ t e', pre = [.destroyed t e']) :
    onQueue e pre = [] := by
  rcases h with rfl | ⟨t, e', rfl⟩ <;> rfl

/-- The events of both queues in one trace. -/
def merged (tr : Trace τ) : List (τ × Obs DataQueue.Point (End × DataQueue.Event)) :=
  tr.filterMap fun
    | .queue e x => some (x.1, x.2.map fun ev => (e, ev))
    | .destroyed _ _ => none

theorem merged_append (tr : Trace τ) (e : End) {pre : Trace τ} (hpre : pre = [] ∨ ∃ t e', pre = [.destroyed t e'])
    (es : DataQueue.Trace τ) : merged (tr ++ (pre ++ es.map (.queue e))) =
      merged tr ++ es.map fun x => (x.1, x.2.map fun ev => (e, ev)) := by
  have hpre' : merged pre = [] := by
    rcases hpre with rfl | ⟨t, e', rfl⟩ <;> rfl
  simp only [merged] at hpre' ⊢
  simp [hpre', List.filterMap_map]

/-- A new connection. -/
def start (hN : 1 ≤ N) : Connection τ N where
  queue _ := .start (.connectedNew N hN) .idle
  readTimeout _ := 0
  destroying _ := none

/-- The calls that lines make: the flag is set only by the constructor, before the queues are shared. -/
def lineCalls (c : DataQueue.Call) : Bool := c ≠ .setConnectionFlag true

/-- The thread is in no call. -/
def Free (conn : Connection τ N) (t : τ) : Prop := ∀ e, (conn.queue e).pc t = .idle

instance (conn : Connection τ N) (t : τ) : Decidable (conn.Free t) :=
  decidable_of_iff ((conn.queue .client).pc t = .idle ∧ (conn.queue .server).pc t = .idle)
    ⟨fun h e => by cases e <;> simp [h], fun h => ⟨h _, h _⟩⟩

variable [DecidableEq τ]

def stepQueue (conn : Connection τ N) (e : End) (l : Monitor.Label τ DataQueue.Point) :
    Option (Connection τ N × Trace τ) :=
  ((DataQueue.program N lineCalls).next (conn.queue e) l).map fun (s, es) =>
    ({ conn with queue := Function.update conn.queue e s }, es.map (.queue e))

/-- A thread begins a call on the queue that `e` writes to. -/
def begin (conn : Connection τ N) (t : τ) (e : End) (c : DataQueue.Call) : Option (Connection τ N × Trace τ) :=
  if conn.Free t ∧ conn.destroying t = none then conn.stepQueue e (.invoke t (.busy c .enter)) else none

def next (conn : Connection τ N) : Label τ → Option (Connection τ N × Trace τ)
  | .read t e buflen => conn.begin t e.peer (InprocLine.read (conn.readTimeout e) buflen)
  | .write t e buffer => conn.begin t e (InprocLine.write buffer)
  | .setOption t e option data =>
    if conn.Free t ∧ conn.destroying t = none then
      match InprocLine.setOption option data with
      | .ok readTimeout => some ({ conn with readTimeout := Function.update conn.readTimeout e readTimeout }, [])
      | .error _ => some (conn, [])
    else none
  | .destroy t e =>
    (conn.begin t e (.setConnectionFlag false)).map fun (conn', es) =>
      ({ conn' with destroying := Function.update conn'.destroying t (some e) }, .destroyed t e :: es)
  | .disconnectIn t =>
    match conn.destroying t with
    | some e =>
      let conn' := { conn with destroying := Function.update conn.destroying t none }
      conn'.begin t e.peer (.setConnectionFlag false)
    | none => none
  | .queue e l =>
    match l with
    | .invoke _ _ => none
    | l => conn.stepQueue e l

def machine (τ : Type) (N : Nat) [DecidableEq τ] : Machine (Connection τ N) (Label τ) (Event τ) := ⟨next⟩

/-! ### What one step can do -/

/-- The steps of a connection. -/
inductive Move (conn : Connection τ N) : Connection τ N → Trace τ → Prop
  | option (readTimeout : End → Int) : Move conn { conn with readTimeout := readTimeout } []
  | call {t e c s es} : conn.Free t → (∀ b, c ≠ .setConnectionFlag b) →
      (DataQueue.program N lineCalls).next (conn.queue e) (.invoke t (.busy c .enter)) = some (s, es) →
      Move conn { conn with queue := Function.update conn.queue e s } (es.map (.queue e))
  | destroy {t e s es} : conn.Free t →
      (DataQueue.program N lineCalls).next (conn.queue e) (.invoke t (.busy (.setConnectionFlag false) .enter)) =
        some (s, es) →
      Move conn { conn with queue := Function.update conn.queue e s,
                            destroying := Function.update conn.destroying t (some e) }
        (.destroyed t e :: es.map (.queue e))
  | disconnectIn {t e s es} : conn.destroying t = some e → conn.Free t →
      (DataQueue.program N lineCalls).next (conn.queue e.peer)
        (.invoke t (.busy (.setConnectionFlag false) .enter)) = some (s, es) →
      Move conn { conn with queue := Function.update conn.queue e.peer s,
                            destroying := Function.update conn.destroying t none } (es.map (.queue e.peer))
  | queue {e l s es} : (∀ t p, l ≠ .invoke t p) →
      (DataQueue.program N lineCalls).next (conn.queue e) l = some (s, es) →
      Move conn { conn with queue := Function.update conn.queue e s } (es.map (.queue e))

theorem stepQueue_eq {conn conn' : Connection τ N} {e : End} {l : Monitor.Label τ DataQueue.Point} {es : Trace τ}
    (h : conn.stepQueue e l = some (conn', es)) : ∃ s es',
      (DataQueue.program N lineCalls).next (conn.queue e) l = some (s, es') ∧
        conn' = { conn with queue := Function.update conn.queue e s } ∧ es = es'.map (.queue e) := by
  obtain ⟨⟨s, es'⟩, hnext, heq⟩ := Option.map_eq_some_iff.1 h
  cases heq
  exact ⟨s, es', hnext, rfl, rfl⟩

theorem begin_eq {conn conn' : Connection τ N} {t : τ} {e : End} {c : DataQueue.Call} {es : Trace τ}
    (h : conn.begin t e c = some (conn', es)) : conn.Free t ∧
      conn.stepQueue e (.invoke t (.busy c .enter)) = some (conn', es) := by
  simp only [begin] at h
  split at h
  · rename_i hfree
    exact ⟨hfree.1, h⟩
  · cases h

theorem move_of_next {conn conn' : Connection τ N} {l : Label τ} {es : Trace τ}
    (h : conn.next l = some (conn', es)) : conn.Move conn' es := by
  cases l with
  | read t e buflen =>
    obtain ⟨hfree, hstep⟩ := begin_eq h
    obtain ⟨s, es', hnext, rfl, rfl⟩ := stepQueue_eq hstep
    refine .call hfree (fun b => ?_) hnext
    unfold InprocLine.read
    split <;> exact DataQueue.Call.noConfusion
  | write t e buffer =>
    obtain ⟨hfree, hstep⟩ := begin_eq h
    obtain ⟨s, es', hnext, rfl, rfl⟩ := stepQueue_eq hstep
    exact .call hfree (fun _ => DataQueue.Call.noConfusion) hnext
  | setOption t e option data =>
    simp only [next] at h
    split at h
    · split at h <;> cases h
      · exact .option _
      · exact .option conn.readTimeout
    · cases h
  | destroy t e =>
    obtain ⟨⟨conn₁, es₁⟩, hbegin, heq⟩ := Option.map_eq_some_iff.1 h
    cases heq
    obtain ⟨hfree, hstep⟩ := begin_eq hbegin
    obtain ⟨s, es', hnext, rfl, rfl⟩ := stepQueue_eq hstep
    exact .destroy hfree hnext
  | disconnectIn t =>
    simp only [next] at h
    split at h
    · rename_i e he
      obtain ⟨hfree, hstep⟩ := begin_eq h
      obtain ⟨s, es', hnext, rfl, rfl⟩ := stepQueue_eq hstep
      exact .disconnectIn he hfree hnext
    · cases h
  | queue e l =>
    cases l with
    | invoke t p => cases h
    | step t | signal t u | wake t | expire t =>
      obtain ⟨s, es', hnext, rfl, rfl⟩ := stepQueue_eq h
      exact .queue (by simp) hnext

/-- Of a step the queues see a step of one of them, or nothing. -/
theorem Move.queue_cases {conn conn' : Connection τ N} {es : Trace τ} (h : conn.Move conn' es) :
    (conn'.queue = conn.queue ∧ es = []) ∨ ∃ e l s es' pre,
      (DataQueue.program N lineCalls).next (conn.queue e) l = some (s, es') ∧
        (∀ t p, l = .invoke t p → conn.Free t) ∧ conn'.queue = Function.update conn.queue e s ∧
        es = pre ++ es'.map (.queue e) ∧ (pre = [] ∨ ∃ t e', pre = [.destroyed t e']) := by
  cases h with
  | option => exact .inl ⟨rfl, rfl⟩
  | call hfree _ hnext =>
    exact .inr ⟨_, _, _, _, [], hnext, fun _ _ heq => by cases heq; exact hfree, rfl, rfl, .inl rfl⟩
  | destroy hfree hnext =>
    exact .inr ⟨_, _, _, _, [_], hnext, fun _ _ heq => by cases heq; exact hfree, rfl, rfl, .inr ⟨_, _, rfl⟩⟩
  | disconnectIn _ hfree hnext =>
    exact .inr ⟨_, _, _, _, [], hnext, fun _ _ heq => by cases heq; exact hfree, rfl, rfl, .inl rfl⟩
  | queue hl hnext =>
    exact .inr ⟨_, _, _, _, [], hnext, fun _ _ heq => absurd heq (hl _ _), rfl, rfl, .inl rfl⟩

/-! ### The queues of a connection -/

variable {ok : Connection τ N → Label τ → Prop} {hN : 1 ≤ N} {conn : Connection τ N} {tr : Trace τ}

/-- Each queue of a connection runs by itself. -/
theorem run_onQueue (hrun : (machine τ N).RunWhere ok (start hN) tr conn) (e : End) :
    (DataQueue.program N lineCalls).machine.Run (.start (.connectedNew N hN) .idle) (onQueue e tr)
      (conn.queue e) := by
  refine hrun.project (fun conn => conn.queue e) _ ?_
  intro conn l conn' es _ hnext
  rcases (move_of_next hnext).queue_cases with ⟨hqueue, rfl⟩ | ⟨e', l', s, es', pre, hstep, -, hqueue, rfl, hpre⟩
  · exact .inl ⟨by rw [hqueue], rfl⟩
  · by_cases he : e' = e
    · subst he
      refine .inr ⟨l', ?_⟩
      have hes : onQueue e' (pre ++ es'.map (.queue e')) = es' := by
        rw [onQueue_append, onQueue_destroyed hpre, onQueue_self, List.nil_append]
      rw [show List.filterMap _ (pre ++ es'.map (.queue e')) = es' from hes, hqueue, Function.update_self]
      exact hstep
    · refine .inl ⟨by rw [hqueue, Function.update_of_ne (Ne.symm he)], ?_⟩
      show onQueue e (pre ++ es'.map (.queue e')) = []
      rw [onQueue_append, onQueue_destroyed hpre, onQueue_of_ne he, List.nil_append]

/-! ### Accesses -/

/-- What `t` did to the two queues since it began its last call. -/
def accesses (t : τ) (tr : Trace τ) : List (End × DataQueue.Event) := own t (merged tr)

/-- A thread inside a call on one queue is in no call on the other, and did nothing to the other. -/
def OneCall (tr : Trace τ) (conn : Connection τ N) : Prop :=
  ∀ t e, (conn.queue e).pc t ≠ .idle →
    (conn.queue e.peer).pc t = .idle ∧ accesses t tr = (own t (onQueue e tr)).map fun ev => (e, ev)

theorem oneCall_of_run (hrun : (machine τ N).RunWhere ok (start hN) tr conn) : OneCall tr conn := by
  refine hrun.invariant OneCall ?_ ?_
  · intro t e ht
    exact absurd rfl ht
  · intro tr conn l conn' es hinv _ hnext
    rcases (move_of_next hnext).queue_cases with
      ⟨hqueue, rfl⟩ | ⟨e', l', s, es', pre, hstep, hfree, hqueue, rfl, hpre⟩
    · intro t e ht
      rw [hqueue] at ht ⊢
      rw [List.append_nil]
      exact hinv t e ht
    · intro t e ht
      rw [accesses, merged_append tr e' hpre, onQueue_append, onQueue_append, onQueue_destroyed hpre, List.nil_append]
      by_cases he : e' = e
      · subst he
        rw [hqueue, Function.update_self] at ht
        rw [hqueue, Function.update_of_ne e'.peer_ne, onQueue_self]
        by_cases hbusy : (conn.queue e').pc t = .idle
        · -- the thread begins a call, so it was in none
          have hinvoke : ∃ p, l' = .invoke t p := by
            by_contra hnot
            exact ht (DataQueue.idle_of_next hstep hbusy fun p hp => hnot ⟨p, hp⟩).1
          obtain ⟨p, rfl⟩ := hinvoke
          have hes : es' = [(t, .call p)] := by
            simp only [Program.next] at hstep
            split at hstep <;> cases hstep
            rfl
          subst hes
          refine ⟨hfree t p rfl _, ?_⟩
          simp only [List.map_singleton, Obs.map]
          rw [own_call, own_call, List.map_nil]
        · obtain ⟨hpeer, hown⟩ := hinv t e' hbusy
          exact ⟨hpeer, own_append_map hown es'⟩
      · rw [hqueue, Function.update_of_ne (Ne.symm he)] at ht
        obtain ⟨hpeer, hown⟩ := hinv t e ht
        obtain rfl := End.eq_peer he
        have hnot : ∀ p, l' ≠ .invoke t p := fun p hp => ht (hfree t p hp e)
        obtain ⟨hidle, hne⟩ := DataQueue.idle_of_next hstep hpeer hnot
        rw [hqueue, Function.update_self, onQueue_of_ne he, List.append_nil]
        refine ⟨hidle, ?_⟩
        rw [own_append_of_ne]
        · exact hown
        · intro x hx
          obtain ⟨y, hy, rfl⟩ := List.mem_map.1 hx
          exact hne y hy

/-! ### Destroyed ends -/

theorem destroyed_of_destroying (hrun : (machine τ N).RunWhere ok (start hN) tr conn) :
    ∀ t e, conn.destroying t = some e → ∃ u e', .destroyed u e' ∈ tr := by
  refine hrun.invariant (fun tr conn => ∀ t e, conn.destroying t = some e → ∃ u e', .destroyed u e' ∈ tr) ?_ ?_
  · intro t e h
    cases h
  · intro tr conn l conn' es hinv _ hnext t e ht
    have hkeep : conn.destroying t = some e → ∃ u e', Event.destroyed u e' ∈ tr ++ es := by
      intro h
      obtain ⟨u, e', hmem⟩ := hinv t e h
      exact ⟨u, e', List.mem_append_left _ hmem⟩
    have hmove := move_of_next hnext
    cases hmove with
    | option _ => exact hkeep ht
    | call _ _ _ => exact hkeep ht
    | @destroy t' e' _ _ _ _ => exact ⟨t', e', by simp⟩
    | @disconnectIn t' e' _ _ hd _ _ =>
      obtain ⟨u, e'', hmem⟩ := hinv t' e' hd
      exact ⟨u, e'', List.mem_append_left _ hmem⟩
    | queue _ _ => exact hkeep ht

/-- Only the destructor of an end clears the flag of a queue. -/
theorem destroyed_of_clearing (hrun : (machine τ N).RunWhere ok (start hN) tr conn) {past future : Trace τ} {e : End}
    {t : τ} (htr : tr = past ++ .queue e (t, .call (.busy (.setConnectionFlag false) .enter)) :: future) :
    ∃ u e', .destroyed u e' ∈ past := by
  obtain ⟨tr', conn', l, conn'', es, es', hrun', -, hnext, rfl⟩ := hrun.step_of_event htr
  -- the call is among the events of a queue, which began it
  have hinvoke : ∀ {e' l' s es''}, (DataQueue.program N lineCalls).next (conn'.queue e') l' = some (s, es'') →
      Event.queue e (t, .call (.busy (.setConnectionFlag false) .enter)) ∈ es''.map (.queue e') →
        l' = .invoke t (.busy (.setConnectionFlag false) .enter) := by
    intro e' l' s es'' hstep hmem
    obtain ⟨x, hx, heq⟩ := List.mem_map.1 hmem
    cases heq
    exact (Program.invoke_of_call hstep hx).1
  have hmove := move_of_next hnext
  generalize hes : es ++ Event.queue e (t, .call (.busy (.setConnectionFlag false) .enter)) :: es' = all at hmove
  have hmem : Event.queue e (t, .call (.busy (.setConnectionFlag false) .enter)) ∈ all := by
    rw [← hes]
    simp
  cases hmove with
  | option _ => cases hmem
  | call _ hc hstep =>
    cases hinvoke hstep hmem
    exact absurd rfl (hc false)
  | @destroy t' e' _ _ _ _ =>
    cases es with
    | nil => cases hes
    | cons x es =>
      obtain rfl : x = .destroyed t' e' := (List.cons.inj hes).1
      exact ⟨t', e', by simp⟩
  | @disconnectIn t' e' _ _ hd _ _ =>
    obtain ⟨u, e'', hmem⟩ := destroyed_of_destroying hrun' t' e' hd
    exact ⟨u, e'', List.mem_append_left _ hmem⟩
  | queue hl hstep => exact absurd (hinvoke hstep hmem) (hl _ _)

/-! ### Lossless streams -/

/-- The accesses of a call that returns are those to its own queue. -/
theorem accesses_of_return (hrun : (machine τ N).RunWhere ok (start hN) tr conn) {past future : Trace τ} {e : End}
    {t : τ} {c : DataQueue.Call} {r : DataQueue.Result}
    (htr : tr = past ++ .queue e (t, .event (.ret c r)) :: future) :
    accesses t past = (own t (onQueue e past)).map fun ev => (e, ev) := by
  obtain ⟨tr', conn', l, conn'', es, es', hrun', -, hnext, rfl⟩ := hrun.step_of_event htr
  rcases (move_of_next hnext).queue_cases with ⟨-, hnil⟩ | ⟨e', l', s, es'', pre, hstep, -, -, hes, hpre⟩
  · simp at hnil
  · have hnot : ∀ e' x, Event.queue e' x ∉ pre := by
      intro e' x
      rcases hpre with rfl | ⟨u, e'', rfl⟩ <;> simp
    have hmem : Event.queue e (t, .event (.ret c r)) ∈ pre ++ es''.map (.queue e') := by
      rw [← hes]
      simp
    rcases List.mem_append.1 hmem with hmem | hmem
    · exact absurd hmem (hnot _ _)
    · obtain ⟨x, hx, heq⟩ := List.mem_map.1 hmem
      cases heq
      obtain ⟨rfl, hbusy⟩ := DataQueue.return_of_next hstep hx
      -- the return is the last event of its step
      have hlast : es = pre := by
        rcases List.eq_nil_or_concat es' with rfl | ⟨ys, z, rfl⟩
        · exact (List.append_inj' hes rfl).1
        · rw [List.concat_eq_append, ← List.cons_append, ← List.append_assoc] at hes
          have hpre' := (List.append_inj' hes rfl).1
          exact absurd (hpre' ▸ by simp) (hnot e (t, .event (.ret c r)))
      obtain ⟨-, hown⟩ := oneCall_of_run hrun' t e hbusy
      have hmerged := merged_append tr' e hpre []
      simp only [List.map_nil, List.append_nil] at hmerged
      rw [hlast, accesses, hmerged, onQueue_append, onQueue_destroyed hpre, List.append_nil]
      exact hown

/-- In every run of a connection, in each direction the bytes delivered are a prefix of the bytes accepted, the rest
of which is in the queue.  A call that returns has done to the two queues what its result says: a write that returns
`n` has put in the first `n` bytes it was given, a read has taken out the bytes it returns, and a call that returns an
error has done nothing.  A read reports a lost connection only after the destruction of an end has begun, and when all
that was accepted in its direction has been delivered. -/
theorem lossless_streams (hN : 1 ≤ N) (tr : Trace τ) (conn : Connection τ N)
    (hrun : (machine τ N).Run (start hN) tr conn) :
    (∀ e, DataQueue.delivered (onQueue e tr) <+: DataQueue.accepted (onQueue e tr) ∧
      DataQueue.accepted (onQueue e tr) =
        DataQueue.delivered (onQueue e tr) ++ (conn.queue e).data.buffer.ring.contents) ∧
    ∀ past future e t c r, tr = past ++ .queue e (t, .event (.ret c r)) :: future →
      (∀ buffer n, c = .write buffer → r = .count n →
        n ≤ buffer.length ∧ accesses t past = [(e, .put (buffer.take n))]) ∧
      (∀ bs, r = .bytes bs → accesses t past = [(e, .took bs)]) ∧
      (∀ error, r = .error error → accesses t past = []) ∧
      (c.buflen.isSome → r = .error .eConnectionLost →
        (∃ u e', .destroyed u e' ∈ past) ∧
          DataQueue.delivered (onQueue e past) = DataQueue.accepted (onQueue e past)) := by
  have hfresh : (DataQueue.connectedNew N hN).buffer.fifo = .empty := ByteRing.fifo_new hN
  refine ⟨fun e => ?_, ?_⟩
  · have hconserved := DataQueue.conserved_of_run hfresh (run_onQueue hrun e)
    exact ⟨hconserved.isPrefix, hconserved⟩
  intro past future e t c r htr
  have haccesses := accesses_of_return hrun htr
  have hqueue := run_onQueue hrun e
  rw [htr, onQueue_split] at hqueue
  obtain ⟨hcall, haccounts, hlost⟩ := DataQueue.reports_of_run hfresh rfl hqueue _ _ _ rfl
  refine ⟨?_, ?_, ?_, ?_⟩
  · rintro buffer n rfl rfl
    obtain ⟨hle, -, hown⟩ := haccounts
    exact ⟨hle, by rw [haccesses, hown, List.map_singleton]⟩
  · rintro bs rfl
    have hown : own t (onQueue e past) = [.took bs] := by
      cases c with
      | read _ | readWithTimeout _ _ => exact haccounts.2.2.2
      | write _ | setConnectionFlag _ => exact haccounts.elim
    rw [haccesses, hown, List.map_singleton]
  · rintro error rfl
    have hown : own t (onQueue e past) = [] := by
      cases c <;> cases error <;> first | exact haccounts.elim | exact haccounts | exact haccounts.2
    rw [haccesses, hown, List.map_nil]
  · intro hreads hr
    obtain ⟨hclear, hdrained⟩ := hlost hr
    obtain ⟨u, hu⟩ := hclear rfl
    refine ⟨?_, hdrained hreads⟩
    obtain ⟨x, hx, heq⟩ := List.mem_filterMap.1 hu
    cases x with
    | destroyed _ _ => cases heq
    | queue e' x =>
      simp only [Option.ite_none_right_eq_some, Option.some.injEq] at heq
      obtain ⟨rfl, rfl⟩ := heq
      obtain ⟨before, after, rfl⟩ := List.append_of_mem hx
      rw [List.append_assoc, List.cons_append] at htr
      obtain ⟨v, e'', hv⟩ := destroyed_of_clearing hrun htr
      exact ⟨v, e'', List.mem_append_left _ hv⟩

/-- A write of two bytes, the destruction of the writing end, and a read that still gets the bytes. -/
theorem lossless_streams_two : ∃ tr conn, (machine Bool 4).Run (start (by decide)) tr conn ∧
    .queue .client (false, .event (.ret (.read 5) (.bytes [1, 2]))) ∈ tr ∧
      ∀ e, DataQueue.delivered (onQueue e tr) <+: DataQueue.accepted (onQueue e tr) := by
  have h : (((machine Bool 4).exec (start (by decide))
      (List.flatten [[.write true .client [1, 2]], List.replicate 6 (.queue .client (.step true)),
        [.destroy true .client], List.replicate 6 (.queue .client (.step true)),
        [.read false .server 5], List.replicate 5 (.queue .client (.step false))])).any fun r =>
      decide (.queue .client (false, .event (.ret (.read 5) (.bytes [1, 2]))) ∈ r.2)) = true := by decide +kernel
  obtain ⟨⟨conn, tr⟩, hexec, hmem⟩ := (Option.any_eq_true _ _).1 h
  have hrun := Machine.RunWhere.of_exec hexec
  exact ⟨tr, conn, hrun, of_decide_eq_true hmem,
    fun e => ((lossless_streams (by decide) tr conn hrun).1 e).1⟩

end Connection

end Cppio
