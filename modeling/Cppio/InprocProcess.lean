import Cppio.InprocLine
import Cppio.InprocPairingSafety

/-!
# The in-process lines of a process

Clients and acceptors are paired while lines that were paired before are in use: threads of any number call
`createClient` and `waitConnection`, and `read`, `write`, `setOption` and the destructor of lines that those have
returned.  A call on a line is a call on the queue that the line points to at that moment.

The whole is made of connections (`independent_connections`): what is seen of the lines and queues of a pair is a run
of a `Connection`, whatever happens to the registry, to other pairs, and to lines that are still being made.  So each
pair is two lossless streams of its own.
-/

namespace Cppio

/-- The in-process lines of a process. -/
structure InprocProcess (τ : Type) where
  /-- The registry, the lines, and the calls of `createClient` and `waitConnection`. -/
  pairing : Inproc.State τ
  /-- The lines that were returned and not destroyed. -/
  returned : List Nat
  readTimeout : Nat → Int
  /-- A thread in the destructor of a line that has still to clear the flag of the incoming queue. -/
  destroying : τ → Option Nat
  /-- The queues on which a method was called. -/
  used : Nat → Option (DataQueue.State τ InprocLine.queueSize)

namespace InprocProcess

open Monitor

variable {τ : Type}

/-- What happens next: something in `createClient` or `waitConnection`, a call on a line, or something at a queue. -/
inductive Label (τ : Type) where
  | pair (l : Monitor.Label τ Inproc.Point)
  | read (t : τ) (line buflen : Nat)
  | write (t : τ) (line : Nat) (buffer : List Byte)
  | setOption (t : τ) (line : Nat) (option : LineOption) (data : UInt32)
  | destroy (t : τ) (line : Nat)
  | disconnectIn (t : τ)
  | queue (q : Nat) (l : Monitor.Label τ DataQueue.Point)

inductive Event (τ : Type) where
  | pair (x : τ × Obs Inproc.Point Inproc.Event)
  | destroyed (t : τ) (line : Nat)
  | queue (q : Nat) (x : τ × Obs DataQueue.Point DataQueue.Event)
deriving DecidableEq

abbrev Trace (τ : Type) := List (Event τ)

/-- A process without lines. -/
def start : InprocProcess τ where
  pairing := .start .empty .idle
  returned := []
  readTimeout _ := 0
  destroying _ := none
  used _ := none

/-- A queue, in the state its constructor and `setConnectionFlag(true)` left it in until a method was called. -/
def queue (w : InprocProcess τ) (q : Nat) : DataQueue.State τ InprocLine.queueSize :=
  (w.used q).getD (.start (w.pairing.data.queues.getD q Inproc.newQueue) .idle)

/-- The line that a call returns. -/
def returnedLine : Obs Inproc.Point Inproc.Event → Option Nat
  | .event (.created line) => some line.id
  | .event (.accepted _ result) => result
  | _ => none

/-- The thread is in no call. -/
def Free (w : InprocProcess τ) (t : τ) : Prop :=
  w.destroying t = none ∧ w.pairing.pc t = .idle ∧
    ∀ q < w.pairing.data.queues.length, (w.queue q).pc t = .idle

instance (w : InprocProcess τ) (t : τ) : Decidable (w.Free t) :=
  inferInstanceAs (Decidable (_ ∧ _ ∧ ∀ q < w.pairing.data.queues.length, (w.queue q).pc t = .idle))

/-- A thread that begins a call is in no other. -/
def MayBegin (w : InprocProcess τ) : Monitor.Label τ Inproc.Point → Prop
  | .invoke t _ => w.Free t
  | _ => True

instance (w : InprocProcess τ) (l : Monitor.Label τ Inproc.Point) : Decidable (w.MayBegin l) :=
  match l with
  | .invoke t _ => inferInstanceAs (Decidable (w.Free t))
  | .step _ | .signal _ _ | .wake _ | .expire _ => isTrue trivial

variable [DecidableEq τ]

def stepQueue (w : InprocProcess τ) (q : Nat) (l : Monitor.Label τ DataQueue.Point) :
    Option (InprocProcess τ × Trace τ) :=
  ((DataQueue.program InprocLine.queueSize Connection.lineCalls).next (w.queue q) l).map fun (s, es) =>
    ({ w with used := Function.update w.used q (some s) }, es.map (.queue q))

/-- A thread calls a method of the queue that a line points to. -/
def begin (w : InprocProcess τ) (t : τ) (line : Nat) (direction : Direction) (c : DataQueue.Call) :
    Option (InprocProcess τ × Trace τ) :=
  if w.Free t then
    match w.pairing.data.queueOf direction line with
    | some q => w.stepQueue q (.invoke t (.busy c .enter))
    | none => none
  else none

def next (w : InprocProcess τ) : Label τ → Option (InprocProcess τ × Trace τ)
  | .pair l =>
    if w.MayBegin l then
      (Inproc.program.next w.pairing l).map fun (s, es) =>
        ({ w with pairing := s, returned := w.returned ++ es.filterMap fun x => returnedLine x.2 }, es.map .pair)
    else none
  | .read t line buflen =>
    if line ∈ w.returned then w.begin t line .incoming (InprocLine.read (w.readTimeout line) buflen) else none
  | .write t line buffer => if line ∈ w.returned then w.begin t line .outgoing (InprocLine.write buffer) else none
  | .setOption t line option data =>
    if line ∈ w.returned ∧ w.Free t then
      match InprocLine.setOption option data with
      | .ok readTimeout => some ({ w with readTimeout := Function.update w.readTimeout line readTimeout }, [])
      | .error _ => some (w, [])
    else none
  | .destroy t line =>
    if line ∈ w.returned then
      (w.begin t line .outgoing (.setConnectionFlag false)).map fun (w', es) =>
        ({ w' with returned := w'.returned.filter (· ≠ line),
                   destroying := Function.update w'.destroying t (some line) }, .destroyed t line :: es)
    else none
  | .disconnectIn t =>
    match w.destroying t with
    | some line =>
      { w with destroying := Function.update w.destroying t none }.begin t line .incoming (.setConnectionFlag false)
    | none => none
  | .queue q l =>
    match l, w.used q with
    | .invoke _ _, _ => none
    | l, some _ => w.stepQueue q l
    | _, none => none

def machine (τ : Type) [DecidableEq τ] : Machine (InprocProcess τ) (Label τ) (Event τ) := ⟨next⟩

/-! ### What one step can do -/

/-- What is seen of `createClient` and `waitConnection`. -/
def onPairing (tr : Trace τ) : Inproc.Trace τ :=
  tr.filterMap fun
    | .pair x => some x
    | _ => none

/-- What is seen of a queue. -/
def onQueue (q : Nat) (tr : Trace τ) : DataQueue.Trace τ :=
  tr.filterMap fun
    | .queue q' x => if q' = q then some x else none
    | _ => none

omit [DecidableEq τ] in
theorem onPairing_append (tr tr' : Trace τ) : onPairing (tr ++ tr') = onPairing tr ++ onPairing tr' :=
  List.filterMap_append ..

omit [DecidableEq τ] in
theorem onPairing_map (es : Inproc.Trace τ) : onPairing (es.map .pair) = es := by
  simp [onPairing, List.filterMap_map]

omit [DecidableEq τ] in
theorem onPairing_queue (q : Nat) (es : DataQueue.Trace τ) : onPairing (es.map (.queue q)) = [] := by
  simp [onPairing, List.filterMap_map]

omit [DecidableEq τ] in
theorem onQueue_split {past future : Trace τ} {q : Nat} {x : τ × Obs DataQueue.Point DataQueue.Event} :
    onQueue q (past ++ .queue q x :: future) = onQueue q past ++ x :: onQueue q future := by
  simp [onQueue]

/-- The steps of a process. -/
inductive Move (w : InprocProcess τ) : InprocProcess τ → Trace τ → Prop
  | pair {l s es} : Inproc.program.next w.pairing l = some (s, es) →
      Move w { w with pairing := s, returned := w.returned ++ es.filterMap fun x => returnedLine x.2 } (es.map .pair)
  | option {t line option data readTimeout} : line ∈ w.returned → w.Free t →
      InprocLine.setOption option data = .ok readTimeout →
      Move w { w with readTimeout := Function.update w.readTimeout line readTimeout } []
  | silent : Move w w []
  | read {t line buflen q s es} : line ∈ w.returned → w.Free t → w.pairing.data.queueOf .incoming line = some q →
      (DataQueue.program InprocLine.queueSize Connection.lineCalls).next (w.queue q)
        (.invoke t (.busy (InprocLine.read (w.readTimeout line) buflen) .enter)) = some (s, es) →
      Move w { w with used := Function.update w.used q (some s) } (es.map (.queue q))
  | write {t line buffer q s es} : line ∈ w.returned → w.Free t → w.pairing.data.queueOf .outgoing line = some q →
      (DataQueue.program InprocLine.queueSize Connection.lineCalls).next (w.queue q)
        (.invoke t (.busy (InprocLine.write buffer) .enter)) = some (s, es) →
      Move w { w with used := Function.update w.used q (some s) } (es.map (.queue q))
  | destroy {t line q s es} : line ∈ w.returned → w.Free t → w.pairing.data.queueOf .outgoing line = some q →
      (DataQueue.program InprocLine.queueSize Connection.lineCalls).next (w.queue q)
        (.invoke t (.busy (.setConnectionFlag false) .enter)) = some (s, es) →
      Move w { w with used := Function.update w.used q (some s)
                      returned := w.returned.filter (· ≠ line)
                      destroying := Function.update w.destroying t (some line) }
        (.destroyed t line :: es.map (.queue q))
  | disconnectIn {t line q s es} : w.destroying t = some line →
      { w with destroying := Function.update w.destroying t none }.Free t →
      w.pairing.data.queueOf .incoming line = some q →
      (DataQueue.program InprocLine.queueSize Connection.lineCalls).next (w.queue q)
        (.invoke t (.busy (.setConnectionFlag false) .enter)) = some (s, es) →
      Move w { w with used := Function.update w.used q (some s)
                      destroying := Function.update w.destroying t none } (es.map (.queue q))
  | queue {q l s es} : w.used q ≠ none → (∀ t p, l ≠ .invoke t p) →
      (DataQueue.program InprocLine.queueSize Connection.lineCalls).next (w.queue q) l = some (s, es) →
      Move w { w with used := Function.update w.used q (some s) } (es.map (.queue q))

private theorem stepQueue_eq {w w' : InprocProcess τ} {q : Nat} {l : Monitor.Label τ DataQueue.Point} {es : Trace τ}
    (h : w.stepQueue q l = some (w', es)) : ∃ s es',
      (DataQueue.program InprocLine.queueSize Connection.lineCalls).next (w.queue q) l = some (s, es') ∧
        w' = { w with used := Function.update w.used q (some s) } ∧ es = es'.map (.queue q) := by
  obtain ⟨⟨s, es'⟩, hnext, heq⟩ := Option.map_eq_some_iff.1 h
  cases heq
  exact ⟨s, es', hnext, rfl, rfl⟩

private theorem begin_eq {w w' : InprocProcess τ} {t : τ} {line : Nat} {direction : Direction} {c : DataQueue.Call}
    {es : Trace τ} (h : w.begin t line direction c = some (w', es)) : w.Free t ∧
      ∃ q s es', w.pairing.data.queueOf direction line = some q ∧
        (DataQueue.program InprocLine.queueSize Connection.lineCalls).next (w.queue q) (.invoke t (.busy c .enter)) =
          some (s, es') ∧
        w' = { w with used := Function.update w.used q (some s) } ∧ es = es'.map (.queue q) := by
  simp only [begin] at h
  split at h
  · rename_i hfree
    split at h
    · rename_i q hq
      obtain ⟨s, es', hnext, hw, hes⟩ := stepQueue_eq h
      exact ⟨hfree, q, s, es', hq, hnext, hw, hes⟩
    · cases h
  · cases h

theorem move_of_next {w w' : InprocProcess τ} {l : Label τ} {es : Trace τ} (h : w.next l = some (w', es)) :
    w.Move w' es := by
  cases l with
  | pair l =>
    simp only [next] at h
    split at h
    · obtain ⟨⟨s, es'⟩, hnext, heq⟩ := Option.map_eq_some_iff.1 h
      cases heq
      exact .pair hnext
    · cases h
  | read t line buflen =>
    simp only [next] at h
    split at h
    · rename_i hline
      obtain ⟨hfree, q, s, es', hq, hnext, rfl, rfl⟩ := begin_eq h
      exact .read hline hfree hq hnext
    · cases h
  | write t line buffer =>
    simp only [next] at h
    split at h
    · rename_i hline
      obtain ⟨hfree, q, s, es', hq, hnext, rfl, rfl⟩ := begin_eq h
      exact .write hline hfree hq hnext
    · cases h
  | setOption t line option data =>
    simp only [next] at h
    split at h
    · rename_i hline
      split at h <;> cases h
      · exact .option hline.1 hline.2 ‹_›
      · exact .silent
    · cases h
  | destroy t line =>
    simp only [next] at h
    split at h
    · rename_i hline
      obtain ⟨⟨w₁, es₁⟩, hbegin, heq⟩ := Option.map_eq_some_iff.1 h
      cases heq
      obtain ⟨hfree, q, s, es', hq, hnext, rfl, rfl⟩ := begin_eq hbegin
      exact .destroy hline hfree hq hnext
    · cases h
  | disconnectIn t =>
    simp only [next] at h
    split at h
    · rename_i line hline
      obtain ⟨hfree, q, s, es', hq, hnext, rfl, rfl⟩ := begin_eq h
      exact .disconnectIn hline hfree hq hnext
    · cases h
  | queue q l =>
    have hused : w.used q ≠ none ∧ (∀ t p, l ≠ .invoke t p) ∧ w.stepQueue q l = some (w', es) := by
      cases hq : w.used q with
      | none => cases l <;> simp [next, hq] at h
      | some _ => cases l <;> simp [next, hq] at h ⊢ <;> exact h
    obtain ⟨hne, hl, hstep⟩ := hused
    obtain ⟨s, es', hnext, rfl, rfl⟩ := stepQueue_eq hstep
    exact .queue hne hl hnext

/-! ### Pairs -/

/-- Two lines, and the queues they write to. -/
@[ext] structure Pair where
  line : End → Nat
  queue : End → Nat

/-- The end that writes to the queue of an end in this direction. -/
def writer : Direction → End → End
  | .incoming, e => e.peer
  | .outgoing, e => e

/-- The lines of the pair were joined, and are crossed over the two queues. -/
structure Joined (w : InprocProcess τ) (tr : Trace τ) (p : Pair) : Prop where
  adopted : (p.line .client, p.line .server) ∈ Inproc.adoptions (onPairing tr)
  crossed : ∀ direction e, w.pairing.data.queueOf direction (p.line e) = some (p.queue (writer direction e))
  connected : ∀ e, w.pairing.data.queues[p.queue e]? = some Inproc.connectedQueue

/-- The end of the pair with this number, among its lines or among its queues. -/
def endOf (number : End → Nat) (n : Nat) : Option End :=
  if n = number .client then some .client else if n = number .server then some .server else none

/-- What is seen of the lines and queues of a pair. -/
def Pair.view (p : Pair) : Event τ → Option (Connection.Event τ)
  | .pair _ => none
  | .destroyed t line => (endOf p.line line).map (.destroyed t)
  | .queue q x => (endOf p.queue q).map fun e => .queue e x

/-- The state of the lines and queues of a pair. -/
def connection (w : InprocProcess τ) (p : Pair) : Connection τ InprocLine.queueSize where
  queue e := w.queue (p.queue e)
  readTimeout e := w.readTimeout (p.line e)
  destroying t := (w.destroying t).bind (endOf p.line)

theorem endOf_self {number : End → Nat} (h : number .client ≠ number .server) (e : End) :
    endOf number (number e) = some e := by
  cases e
  · exact if_pos rfl
  · rw [endOf, if_neg (Ne.symm h), if_pos rfl]

theorem endOf_eq_none {number : End → Nat} {n : Nat} (h : ∀ e, number e ≠ n) : endOf number n = none := by
  rw [endOf, if_neg (Ne.symm (h .client)), if_neg (Ne.symm (h .server))]

section Pairs

variable {w w' : InprocProcess τ} {tr tr' es : Trace τ} {p p' : Pair}

omit [DecidableEq τ] in
/-- An adopted line and its server's line are a pair. -/
theorem exists_joined {l server : Nat} (hcrossed : Inproc.Crossed w.pairing.data l server)
    (hmem : (l, server) ∈ Inproc.adoptions (onPairing tr)) :
    ∃ p, Joined w tr p ∧ p.line .client = l ∧ p.line .server = server := by
  obtain ⟨q, q', -, -, hl, hs, hq, hq'⟩ := hcrossed
  refine ⟨⟨fun e => if e = .client then l else server, fun e => if e = .client then q else q'⟩, ⟨hmem, ?_, ?_⟩,
    rfl, rfl⟩
  · intro direction e
    cases e with
    | client =>
      show w.pairing.data.queueOf direction l = _
      rw [Inproc.queueOf_of_line hl]
      cases direction <;> rfl
    | server =>
      show w.pairing.data.queueOf direction server = _
      rw [Inproc.queueOf_of_line hs]
      cases direction <;> rfl
  · intro e
    cases e
    · exact hq
    · exact hq'

omit [DecidableEq τ] in
private theorem Joined.carries (h : Joined w tr p) (e : End) :
    Inproc.Carries w.pairing.data (p.line .client) (p.line .server) (p.queue e) := by
  cases e
  · exact ⟨.outgoing, .inl (h.crossed .outgoing .client)⟩
  · exact ⟨.outgoing, .inr (h.crossed .outgoing .server)⟩

omit [DecidableEq τ] in
/-- Pairs with the same lines are the same. -/
private theorem Joined.ext (h : Joined w tr p) (h' : Joined w tr' p')
    (hline : p.line .client = p'.line .client ∧ p.line .server = p'.line .server) : p = p' := by
  have hlines : p.line = p'.line := by
    funext e
    cases e
    · exact hline.1
    · exact hline.2
  have hqueues : p.queue = p'.queue := by
    funext e
    have hout := h.crossed .outgoing e
    rw [hlines, h'.crossed .outgoing e] at hout
    exact (Option.some.inj hout).symm
  exact Pair.ext hlines hqueues

/-- Queues are not shared by two lines in one direction. -/
theorem Joined.sound (hrun : Inproc.program.machine.Run (.start .empty .idle) (onPairing tr) w.pairing)
    (h : Joined w tr p) : Inproc.Sound w.pairing.data := by
  -- the thread that has joined the lines
  obtain ⟨x, -, -⟩ := List.mem_filterMap.1 h.adopted
  exact (Inproc.at_of_run hrun x.1).1

/-- Two pairs that share a queue are the same. -/
private theorem Joined.eq_of_queue (hrun : Inproc.program.machine.Run (.start .empty .idle) (onPairing tr) w.pairing)
    (h : Joined w tr p) (h' : Joined w tr p') {e e' : End} (hqueue : p.queue e = p'.queue e') : p = p' := by
  obtain ⟨hinv, -⟩ := Inproc.inv_of_run hrun
  exact h.ext h' (Inproc.eq_of_carries (h.sound hrun) (hinv.crossed _ _ h.adopted) (hinv.crossed _ _ h'.adopted)
    (h.carries e) (hqueue ▸ h'.carries e'))

/-- Two pairs that share a line are the same. -/
private theorem Joined.eq_of_line (hrun : Inproc.program.machine.Run (.start .empty .idle) (onPairing tr) w.pairing)
    (h : Joined w tr p) (h' : Joined w tr p') {e e' : End} (hline : p.line e = p'.line e') : p = p' := by
  have hout := h.crossed .outgoing e
  rw [hline, h'.crossed .outgoing e'] at hout
  have hqueue : p.queue e = p'.queue e' := (Option.some.inj hout).symm
  exact h.eq_of_queue hrun h' hqueue

/-- The two lines of a pair are different, and so are its queues. -/
theorem Joined.distinct (hrun : Inproc.program.machine.Run (.start .empty .idle) (onPairing tr) w.pairing)
    (h : Joined w tr p) : p.line .client ≠ p.line .server ∧ p.queue .client ≠ p.queue .server := by
  obtain ⟨hinv, -⟩ := Inproc.inv_of_run hrun
  obtain ⟨q, q', hlt, hne, hl, hs, -⟩ := hinv.crossed _ _ h.adopted
  have hclient : w.pairing.data.queueOf .outgoing (p.line .client) = some q := Inproc.queueOf_of_line hl
  have hserver : w.pairing.data.queueOf .outgoing (p.line .server) = some q' := Inproc.queueOf_of_line hs
  refine ⟨Nat.ne_of_lt hlt, fun heq => hne ?_⟩
  rw [h.crossed] at hclient hserver
  rw [writer] at hclient hserver
  rw [← Option.some.inj hclient, ← Option.some.inj hserver, heq]

/-! ### A pair is a connection -/

omit [DecidableEq τ] in
/-- A call on a queue. -/
private theorem queue_used (w : InprocProcess τ) (q : Nat) (s : DataQueue.State τ InprocLine.queueSize) (q' : Nat) :
    queue { w with used := Function.update w.used q (some s) } q' = if q' = q then s else w.queue q' := by
  by_cases hq : q' = q
  · subst hq
    simp [queue]
  · simp [queue, hq]

omit [DecidableEq τ] in
private theorem queue_of_self (w : InprocProcess τ) (hne : p.queue .client ≠ p.queue .server) (e : End)
    (s : DataQueue.State τ InprocLine.queueSize) :
    (fun e' => queue { w with used := Function.update w.used (p.queue e) (some s) } (p.queue e')) =
      Function.update (fun e' => w.queue (p.queue e')) e s := by
  funext e'
  rw [queue_used]
  by_cases he : e' = e
  · subst he
    rw [if_pos rfl, Function.update_self]
  · have hqueue : p.queue e' ≠ p.queue e := by
      cases e <;> cases e' <;> first | exact absurd rfl he | exact hne | exact Ne.symm hne
    rw [if_neg hqueue, Function.update_of_ne he]

omit [DecidableEq τ] in
private theorem queue_of_ne (w : InprocProcess τ) {q : Nat} (hne : ∀ e, p.queue e ≠ q)
    (s : DataQueue.State τ InprocLine.queueSize) :
    (fun e => queue { w with used := Function.update w.used q (some s) } (p.queue e)) =
      fun e => w.queue (p.queue e) := by
  funext e
  rw [queue_used, if_neg (hne e)]

omit [DecidableEq τ] in
private theorem view_self (hne : p.queue .client ≠ p.queue .server) (e : End) (es : DataQueue.Trace τ) :
    (es.map (Event.queue (p.queue e))).filterMap p.view = es.map (.queue e) := by
  rw [List.filterMap_map, ← List.filterMap_eq_map]
  refine List.filterMap_congr fun x _ => ?_
  simp [Pair.view, endOf_self hne]

omit [DecidableEq τ] in
private theorem view_of_ne {q : Nat} (hne : ∀ e, p.queue e ≠ q) (es : DataQueue.Trace τ) :
    (es.map (Event.queue q)).filterMap p.view = [] := by
  rw [List.filterMap_map, List.filterMap_eq_nil_iff]
  intro x _
  simp [Pair.view, endOf_eq_none hne]

omit [DecidableEq τ] in
private theorem view_pairing (es : Inproc.Trace τ) : (es.map Event.pair).filterMap p.view = [] := by
  rw [List.filterMap_map, List.filterMap_eq_nil_iff]
  exact fun _ _ => rfl

omit [DecidableEq τ] in
/-- A thread that is in no call of the process is in none of the connection. -/
private theorem free_connection (h : Joined w tr p) {t : τ} (hfree : w.Free t) :
    (connection w p).Free t ∧ (connection w p).destroying t = none := by
  obtain ⟨hdestroying, -, hqueues⟩ := hfree
  refine ⟨fun e => hqueues _ ?_, by simp only [connection, hdestroying, Option.bind_none]⟩
  by_contra hge
  have hconnected := h.connected e
  rw [List.getElem?_eq_none (Nat.not_lt.1 hge)] at hconnected
  cases hconnected

omit [DecidableEq τ] in
private theorem update_number {α : Type} {number : End → Nat} (hne : number .client ≠ number .server) (f : Nat → α)
    (e : End) (a : α) :
    (fun e' => Function.update f (number e) a (number e')) = Function.update (fun e' => f (number e')) e a := by
  funext e'
  by_cases he : e' = e
  · subst he
    rw [Function.update_self, Function.update_self]
  · have hnumber : number e' ≠ number e := by
      cases e <;> cases e' <;> first | exact absurd rfl he | exact hne | exact Ne.symm hne
    rw [Function.update_of_ne hnumber, Function.update_of_ne he]

private theorem bind_update (destroying : τ → Option Nat) (t : τ) (line : Option Nat) (f : Nat → Option End) :
    (fun u => (Function.update destroying t line u).bind f) =
      Function.update (fun u => (destroying u).bind f) t (line.bind f) := by
  funext u
  by_cases hu : u = t
  · subst hu
    rw [Function.update_self, Function.update_self]
  · rw [Function.update_of_ne hu, Function.update_of_ne hu]

/-- A step at a queue of the pair. -/
private theorem stepQueue_connection (hne : p.queue .client ≠ p.queue .server) {e : End}
    {l : Monitor.Label τ DataQueue.Point} {s : DataQueue.State τ InprocLine.queueSize} {es : DataQueue.Trace τ}
    (hnext : (DataQueue.program InprocLine.queueSize Connection.lineCalls).next (w.queue (p.queue e)) l =
      some (s, es)) :
    (connection w p).stepQueue e l =
      some (connection { w with used := Function.update w.used (p.queue e) (some s) } p,
        (es.map (Event.queue (p.queue e))).filterMap p.view) := by
  have hnext' : (DataQueue.program InprocLine.queueSize Connection.lineCalls).next ((connection w p).queue e) l =
      some (s, es) := hnext
  rw [Connection.stepQueue, hnext', view_self hne]
  simp only [Option.map_some, connection]
  rw [queue_of_self w hne]

/-- A thread begins a call on a queue of the pair. -/
private theorem begin_connection (h : Joined w tr p) (hne : p.queue .client ≠ p.queue .server) {t : τ}
    (hfree : w.Free t) {e : End} {c : DataQueue.Call} {s : DataQueue.State τ InprocLine.queueSize}
    {es : DataQueue.Trace τ}
    (hnext : (DataQueue.program InprocLine.queueSize Connection.lineCalls).next (w.queue (p.queue e))
      (.invoke t (.busy c .enter)) = some (s, es)) :
    (connection w p).begin t e c =
      some (connection { w with used := Function.update w.used (p.queue e) (some s) } p,
        (es.map (Event.queue (p.queue e))).filterMap p.view) := by
  rw [Connection.begin, if_pos (free_connection h hfree)]
  exact stepQueue_connection hne hnext

/-- The lines that may be used, and the queues that were used, belong to pairs. -/
structure Owned (w : InprocProcess τ) (tr : Trace τ) : Prop where
  returned : ∀ line ∈ w.returned, ∃ p e, Joined w tr p ∧ p.line e = line
  destroying : ∀ t line, w.destroying t = some line → ∃ p e, Joined w tr p ∧ p.line e = line
  timeout : ∀ line, w.readTimeout line ≠ 0 → ∃ p e, Joined w tr p ∧ p.line e = line
  used : ∀ q, w.used q ≠ none → ∃ p e, Joined w tr p ∧ p.queue e = q

/-- A pair sees a step on the queue of a line only when the line is one of its own. -/
private theorem apart_or_own (hrun : Inproc.program.machine.Run (.start .empty .idle) (onPairing tr) w.pairing)
    (h : Joined w tr p) (h' : Joined w tr p') :
    p = p' ∨ (∀ e e', p.queue e ≠ p'.queue e') ∧ ∀ e e', p.line e ≠ p'.line e' := by
  by_cases hp : p = p'
  · exact .inl hp
  · exact .inr ⟨fun e e' heq => hp (h.eq_of_queue hrun h' heq), fun e e' heq => hp (h.eq_of_line hrun h' heq)⟩

/-- A call on a line is a call on one end of a pair. -/
private theorem connection_of_call (hrun : Inproc.program.machine.Run (.start .empty .idle) (onPairing tr) w.pairing)
    (h : Joined w tr p) {line q : Nat} {direction : Direction} (hline : ∃ p e, Joined w tr p ∧ p.line e = line)
    (hq : w.pairing.data.queueOf direction line = some q) :
    ((∀ e, p.queue e ≠ q) ∧ ∀ e, p.line e ≠ line) ∨ ∃ e, line = p.line e ∧ q = p.queue (writer direction e) := by
  obtain ⟨p', e, h', rfl⟩ := hline
  rw [h'.crossed direction e] at hq
  obtain rfl := Option.some.inj hq
  rcases apart_or_own hrun h h' with rfl | ⟨hqueues, hlines⟩
  · exact .inr ⟨e, rfl, rfl⟩
  · exact .inl ⟨fun e' => hqueues e' _, fun e' => hlines e' e⟩

/-- Of a step that leaves the pairing alone, a pair sees a step of its connection, or nothing. -/
private theorem connection_of_move (hrun : Inproc.program.machine.Run (.start .empty .idle) (onPairing tr) w.pairing)
    (howned : Owned w tr) (h : Joined w tr p) (hmove : w.Move w' es) :
    w'.pairing = w.pairing → (connection w' p = connection w p ∧ es.filterMap p.view = []) ∨
      ∃ l, (connection w p).next l = some (connection w' p, es.filterMap p.view) := by
  obtain ⟨hlines, hqueues⟩ := h.distinct hrun
  intro hpairing
  cases hmove with
  | silent => exact .inl ⟨rfl, rfl⟩
  | @pair l s es hnext =>
    refine .inl ⟨?_, view_pairing es⟩
    simp only at hpairing
    rw [hpairing]
    rfl
  | @option t line option data readTimeout hline hfree hoption =>
    obtain ⟨p', e, h', rfl⟩ := howned.returned line hline
    rcases apart_or_own hrun h h' with rfl | ⟨-, hne⟩
    · refine .inr ⟨.setOption t e option data, ?_⟩
      simp only [Connection.next]
      rw [if_pos (free_connection h hfree), hoption]
      simp only [connection, update_number hlines]
      rfl
    · refine .inl ⟨?_, rfl⟩
      simp only [connection, Function.update_of_ne (hne _ e)]
      rfl
  | @read t line buflen q s es' hline hfree hq hnext =>
    rcases connection_of_call hrun h (howned.returned line hline) hq with ⟨hapart, -⟩ | ⟨e, rfl, rfl⟩
    · refine .inl ⟨?_, view_of_ne hapart es'⟩
      simp only [connection, queue_of_ne w hapart]
    · exact .inr ⟨.read t e buflen, begin_connection h hqueues hfree hnext⟩
  | @write t line buffer q s es' hline hfree hq hnext =>
    rcases connection_of_call hrun h (howned.returned line hline) hq with ⟨hapart, -⟩ | ⟨e, rfl, rfl⟩
    · refine .inl ⟨?_, view_of_ne hapart es'⟩
      simp only [connection, queue_of_ne w hapart]
    · exact .inr ⟨.write t e buffer, begin_connection h hqueues hfree hnext⟩
  | @destroy t line q s es' hline hfree hq hnext =>
    rcases connection_of_call hrun h (howned.returned line hline) hq with ⟨hapart, hother⟩ | ⟨e, rfl, rfl⟩
    · have hnone : endOf p.line line = none := endOf_eq_none hother
      refine .inl ⟨?_, ?_⟩
      · have hsame : Function.update (fun u => (w.destroying u).bind (endOf p.line)) t none =
            fun u => (w.destroying u).bind (endOf p.line) :=
          Function.update_eq_self_iff.2 (by rw [hfree.1]; rfl)
        have hbind : (some line).bind (endOf p.line) = none := hnone
        simp only [connection, bind_update, hbind, hsame]
        exact congrArg (fun queue => Connection.mk queue _ _) (queue_of_ne w hapart s)
      · rw [List.filterMap_cons_none (by simp [Pair.view, hnone]), view_of_ne hapart]
    · refine .inr ⟨.destroy t e, ?_⟩
      have hbegin := begin_connection h hqueues hfree hnext
      have hbind : (some (p.line e)).bind (endOf p.line) = some e := endOf_self hlines e
      simp only [Connection.next, writer] at hbegin ⊢
      rw [hbegin, List.filterMap_cons_some (show p.view (.destroyed t (p.line e)) = some (.destroyed t e) by
        simp [Pair.view, endOf_self hlines])]
      simp only [Option.map_some, connection, bind_update, hbind]
      rfl
  | @disconnectIn t line q s es' hline hfree hq hnext =>
    rcases connection_of_call hrun h (howned.destroying t line hline) hq with ⟨hapart, hother⟩ | ⟨e, rfl, rfl⟩
    · refine .inl ⟨?_, view_of_ne hapart es'⟩
      have hsame : Function.update (fun u => (w.destroying u).bind (endOf p.line)) t none =
          fun u => (w.destroying u).bind (endOf p.line) :=
        Function.update_eq_self_iff.2 (by rw [hline]; exact (endOf_eq_none hother).symm)
      simp only [connection, bind_update, Option.bind_none, hsame]
      exact congrArg (fun queue => Connection.mk queue _ _) (queue_of_ne w hapart s)
    · refine .inr ⟨.disconnectIn t, ?_⟩
      have hjoined : Joined { w with destroying := Function.update w.destroying t none } tr p :=
        ⟨h.adopted, h.crossed, h.connected⟩
      have hbegin := begin_connection hjoined hqueues hfree hnext
      have hend : (connection w p).destroying t = some e := by
        simp only [connection, hline]
        exact endOf_self hlines e
      simp only [Connection.next, hend]
      rw [← hbegin]
      simp only [connection, bind_update, Option.bind_none]
      rfl
  | @queue q l s es' hne hl hnext =>
    obtain ⟨p', e, h', rfl⟩ := howned.used q hne
    rcases apart_or_own hrun h h' with rfl | ⟨hapart, -⟩
    · refine .inr ⟨.queue e l, ?_⟩
      have hstep := stepQueue_connection hqueues hnext
      cases l with
      | invoke t p => exact absurd rfl (hl t p)
      | step _ | signal _ _ | wake _ | expire _ => exact hstep
    · refine .inl ⟨?_, view_of_ne (fun e' => hapart e' e) es'⟩
      simp only [connection, queue_of_ne w fun e' => hapart e' e]

/-! ### Lines and queues change hands with the pairing only -/

omit [DecidableEq τ] in
private theorem Joined.of_eq (h : Joined w tr p) (hpairing : w'.pairing = w.pairing) (hes : onPairing es = []) :
    Joined w' (tr ++ es) p where
  adopted := by
    rw [onPairing_append, hes, List.append_nil]
    exact h.adopted
  crossed := by
    rw [hpairing]
    exact h.crossed
  connected := by
    rw [hpairing]
    exact h.connected

omit [DecidableEq τ] in
private theorem joined_of_eq (h : Joined w' (tr ++ es) p) (hpairing : w'.pairing = w.pairing)
    (hes : onPairing es = []) : Joined w tr p where
  adopted := by
    have hadopted := h.adopted
    rwa [onPairing_append, hes, List.append_nil] at hadopted
  crossed := by
    rw [← hpairing]
    exact h.crossed
  connected := by
    rw [← hpairing]
    exact h.connected

/-- A line that a thread may call a method of, or is destroying. -/
def Lent (w : InprocProcess τ) (line : Nat) : Prop :=
  line ∈ w.returned ∨ ∃ t, w.destroying t = some line

/-- What a step does that is not one of the pairing: it uses lines and queues that there are. -/
structure Uses (w w' : InprocProcess τ) (es : Trace τ) : Prop where
  pairing : w'.pairing = w.pairing
  unpaired : onPairing es = []
  returned : ∀ line ∈ w'.returned, line ∈ w.returned
  destroying : ∀ t line, w'.destroying t = some line → w.Lent line
  timeout : ∀ line, w'.readTimeout line ≠ 0 → w.readTimeout line ≠ 0 ∨ w.Lent line
  used : ∀ q, w'.used q ≠ none → w.used q ≠ none ∨
    ∃ direction line, w.Lent line ∧ w.pairing.data.queueOf direction line = some q
  kept : ∀ q, w.used q ≠ none → w'.used q ≠ none
  destroyed : ∀ t line, .destroyed t line ∈ es → w.Lent line
  seen : ∀ q x, .queue q x ∈ es → w'.used q ≠ none

omit [DecidableEq τ] in
private theorem uses_of_call {q : Nat} (s : DataQueue.State τ InprocLine.queueSize) (es : DataQueue.Trace τ)
    (hq : w.used q ≠ none ∨ ∃ direction line, w.Lent line ∧ w.pairing.data.queueOf direction line = some q) :
    Uses w { w with used := Function.update w.used q (some s) } (es.map (.queue q)) where
  pairing := rfl
  unpaired := onPairing_queue q es
  returned _ h := h
  destroying t line h := .inr ⟨t, h⟩
  timeout _ h := .inl h
  used q' h := by
    by_cases hqq : q' = q
    · exact hqq ▸ hq
    · simp only [Function.update_of_ne hqq] at h
      exact .inl h
  kept q' h := by
    by_cases hqq : q' = q
    · simp [hqq]
    · simpa [hqq] using h
  destroyed := by simp
  seen q' x hmem := by
    obtain ⟨y, -, heq⟩ := List.mem_map.1 hmem
    cases heq
    simp

private theorem uses_of_move (hmove : w.Move w' es) :
    (∃ l s es', Inproc.program.next w.pairing l = some (s, es') ∧ es = es'.map .pair ∧
      w' = { w with pairing := s, returned := w.returned ++ es'.filterMap fun x => returnedLine x.2 }) ∨
    Uses w w' es := by
  cases hmove with
  | pair hnext => exact .inl ⟨_, _, _, hnext, rfl, rfl⟩
  | silent =>
    exact .inr ⟨rfl, rfl, fun _ h => h, fun t _ h => .inr ⟨t, h⟩, fun _ h => .inl h, fun _ h => .inl h, fun _ h => h,
      by simp, by simp⟩
  | @option t line option data readTimeout hline _ _ =>
    refine .inr ⟨rfl, rfl, fun _ h => h, fun t _ h => .inr ⟨t, h⟩, fun line' h => ?_, fun _ h => .inl h, fun _ h => h,
      by simp, by simp⟩
    by_cases hne : line' = line
    · exact .inr (.inl (hne ▸ hline))
    · simp only [Function.update_of_ne hne] at h
      exact .inl h
  | @read t line buflen q s es' hline _ hq _ => exact .inr (uses_of_call _ _ (.inr ⟨.incoming, line, .inl hline, hq⟩))
  | @write t line buffer q s es' hline _ hq _ =>
    exact .inr (uses_of_call _ _ (.inr ⟨.outgoing, line, .inl hline, hq⟩))
  | @destroy t line q s es' hline _ hq _ =>
    have hcall := uses_of_call s es' (.inr ⟨.outgoing, line, .inl hline, hq⟩)
    refine .inr ⟨rfl, hcall.unpaired, fun _ h => (List.mem_filter.1 h).1, fun t' line' h => ?_, hcall.timeout,
      hcall.used, hcall.kept, fun t' line' hmem => ?_, fun q' x hmem => ?_⟩
    · by_cases ht : t' = t
      · subst ht
        simp only [Function.update_self, Option.some.injEq] at h
        exact .inl (h ▸ hline)
      · simp only [Function.update_of_ne ht] at h
        exact .inr ⟨t', h⟩
    · rcases List.mem_cons.1 hmem with heq | hmem
      · cases heq
        exact .inl hline
      · exact hcall.destroyed t' line' hmem
    · rcases List.mem_cons.1 hmem with heq | hmem
      · cases heq
      · exact hcall.seen q' x hmem
  | @disconnectIn t line q s es' hline _ hq _ =>
    have hcall := uses_of_call s es' (.inr ⟨.incoming, line, .inr ⟨t, hline⟩, hq⟩)
    refine .inr ⟨rfl, hcall.unpaired, fun _ h => h, fun t' line' h => ?_, hcall.timeout, hcall.used, hcall.kept,
      hcall.destroyed, hcall.seen⟩
    by_cases ht : t' = t
    · subst ht
      simp [Function.update_self] at h
    · simp only [Function.update_of_ne ht] at h
      exact .inr ⟨t', h⟩
  | @queue q l s es' hne _ _ => exact .inr (uses_of_call _ _ (.inl hne))

/-! ### The invariant -/

/-- What always holds: the pairing runs by itself, what is used belongs to pairs, and every pair is a connection. -/
structure Inv (tr : Trace τ) (w : InprocProcess τ) : Prop where
  pairing : Inproc.program.machine.Run (.start .empty .idle) (onPairing tr) w.pairing
  owned : Owned w tr
  destroyed : ∀ t line, .destroyed t line ∈ tr → ∃ p e, Joined w tr p ∧ p.line e = line
  seen : ∀ q x, .queue q x ∈ tr → w.used q ≠ none
  connections : ∀ p, Joined w tr p → (Connection.machine τ InprocLine.queueSize).Run (Connection.start (by decide))
    (tr.filterMap p.view) (connection w p)

private theorem inv_start : Inv ([] : Trace τ) start where
  pairing := .start
  owned := ⟨fun _ h => absurd h List.not_mem_nil, nofun, fun _ h => absurd rfl h,
    fun _ h => absurd rfl h⟩
  destroyed _ _ h := absurd h List.not_mem_nil
  seen _ _ h := absurd h List.not_mem_nil
  connections _ h := absurd h.adopted List.not_mem_nil

omit [DecidableEq τ] in
private theorem Owned.lent (h : Owned w tr) {line : Nat} (hline : w.Lent line) :
    ∃ p e, Joined w tr p ∧ p.line e = line := by
  rcases hline with hline | ⟨t, ht⟩
  · exact h.returned line hline
  · exact h.destroying t line ht

private theorem Inv.uses (h : Inv tr w) (hmove : w.Move w' es) (huses : Uses w w' es) : Inv (tr ++ es) w' := by
  have hkeep : ∀ {line}, (∃ p e, Joined w tr p ∧ p.line e = line) →
      ∃ p e, Joined w' (tr ++ es) p ∧ p.line e = line := by
    rintro line ⟨p, e, hp, rfl⟩
    exact ⟨p, e, hp.of_eq huses.pairing huses.unpaired, rfl⟩
  refine ⟨?_, ⟨?_, ?_, ?_, ?_⟩, ?_, ?_, ?_⟩
  · rw [onPairing_append, huses.unpaired, List.append_nil, huses.pairing]
    exact h.pairing
  · exact fun line hline => hkeep (h.owned.returned line (huses.returned line hline))
  · exact fun t line ht => hkeep (h.owned.lent (huses.destroying t line ht))
  · intro line hline
    rcases huses.timeout line hline with hline | hline
    · exact hkeep (h.owned.timeout line hline)
    · exact hkeep (h.owned.lent hline)
  · intro q hq
    rcases huses.used q hq with hq | ⟨direction, line, hline, hqueue⟩
    · obtain ⟨p, e, hp, rfl⟩ := h.owned.used q hq
      exact ⟨p, e, hp.of_eq huses.pairing huses.unpaired, rfl⟩
    · obtain ⟨p, e, hp, rfl⟩ := h.owned.lent hline
      rw [hp.crossed direction e] at hqueue
      exact ⟨p, writer direction e, hp.of_eq huses.pairing huses.unpaired, Option.some.inj hqueue⟩
  · intro t line hmem
    rcases List.mem_append.1 hmem with hmem | hmem
    · exact hkeep (h.destroyed t line hmem)
    · exact hkeep (h.owned.lent (huses.destroyed t line hmem))
  · intro q x hmem
    rcases List.mem_append.1 hmem with hmem | hmem
    · exact huses.kept q (h.seen q x hmem)
    · exact huses.seen q x hmem
  · intro p hp
    have hold := joined_of_eq hp huses.pairing huses.unpaired
    rw [List.filterMap_append]
    rcases connection_of_move h.pairing h.owned hold hmove huses.pairing with ⟨hconn, hes⟩ | ⟨l, hnext⟩
    · rw [hconn, hes, List.append_nil]
      exact h.connections p hold
    · exact (h.connections p hold).step trivial hnext

/-! ### A step of the pairing -/

omit [DecidableEq τ] in
private theorem queueOf_of_keeps {a b : Inproc} (hkeep : Inproc.Keeps a b) {l q q' : Nat}
    (hin : a.queueOf .incoming l = some q) (hout : a.queueOf .outgoing l = some q') (direction : Direction) :
    b.queueOf direction l = a.queueOf direction l := by
  cases hline : a.lines[l]? with
  | none => simp [Inproc.queueOf, hline] at hin
  | some line =>
    have hin' : line.inQueue = some q := (Inproc.queueOf_of_line hline).symm.trans hin
    have hout' : line.outQueue = some q' := (Inproc.queueOf_of_line hline).symm.trans hout
    obtain rfl : line = ⟨some q, some q'⟩ := by
      cases line
      cases hin'
      cases hout'
      rfl
    rw [Inproc.queueOf_of_line hline, Inproc.queueOf_of_line (hkeep.line _ _ _ hline)]

private theorem keeps_of_next {s s' : Inproc.State τ} {ps es : Inproc.Trace τ}
    {l : Monitor.Label τ Inproc.Point} (hrun : Inproc.program.machine.Run (.start .empty .idle) ps s)
    (hnext : Inproc.program.next s l = some (s', es)) : Inproc.Keeps s.data s'.data := by
  rcases Program.act_cases hnext with ⟨hdata, -⟩ | ⟨t, es', hafter, -⟩
  · rw [hdata]
    exact .refl _
  · exact Inproc.keeps_of_after hafter (Inproc.at_of_run hrun t).2

/-- A line that is returned was joined. -/
private theorem adopted_of_returned {s s' : Inproc.State τ} {ps es : Inproc.Trace τ}
    {l : Monitor.Label τ Inproc.Point} (hrun : Inproc.program.machine.Run (.start .empty .idle) ps s)
    (hnext : Inproc.program.next s l = some (s', es)) {line : Nat}
    (hline : line ∈ es.filterMap fun x => returnedLine x.2) :
    ∃ a b, (a, b) ∈ Inproc.adoptions ps ∧ (a = line ∨ b = line) := by
  obtain ⟨-, hjoined⟩ := Inproc.inv_of_run hrun
  obtain ⟨⟨t, o⟩, hmem, ho⟩ := List.mem_filterMap.1 hline
  cases o with
  | call _ => cases ho
  | event ev =>
    obtain ⟨es', hafter, he⟩ := Program.act_of_event hnext hmem
    cases ev with
    | created handle =>
      cases ho
      obtain ⟨server, hadopted⟩ := hjoined.returns t handle.address handle.id (Inproc.created_of_after hafter he)
      exact ⟨handle.id, server, hadopted, .inl rfl⟩
    | accepted address result =>
      cases ho
      obtain ⟨timeoutInMs, hpc⟩ := Inproc.accepted_of_after hafter he
      have hat := (Inproc.at_of_run hrun t).2
      rw [hpc] at hat
      obtain ⟨a, hown⟩ := hat
      have hadopted : .adopted a line ∈ own t ps := by
        rw [hown]
        simp
      exact ⟨a, line, List.mem_filterMap.2 ⟨_, mem_of_own hadopted, rfl⟩, .inr rfl⟩
    | queued _ | taken _ _ | adopted _ _ => cases ho

/-- The process after a step of the pairing. -/
private def paired (w : InprocProcess τ) (s : Inproc.State τ) (es : Inproc.Trace τ) : InprocProcess τ :=
  { w with pairing := s, returned := w.returned ++ es.filterMap fun x => returnedLine x.2 }

private theorem Inv.pair (h : Inv tr w) {l : Monitor.Label τ Inproc.Point} {s : Inproc.State τ}
    {es : Inproc.Trace τ} (hnext : Inproc.program.next w.pairing l = some (s, es)) :
    Inv (tr ++ es.map .pair) (paired w s es) := by
  have hkeep := keeps_of_next h.pairing hnext
  have hes : onPairing (tr ++ es.map .pair) = onPairing tr ++ es := by rw [onPairing_append, onPairing_map]
  have hrun : Inproc.program.machine.Run (.start .empty .idle) (onPairing (tr ++ es.map .pair)) s := by
    rw [hes]
    exact h.pairing.step trivial hnext
  have hstay : ∀ {p}, Joined w tr p → Joined (paired w s es) (tr ++ es.map .pair) p := by
    intro p hp
    refine ⟨?_, fun direction e => ?_, fun e => hkeep.queue _ (hp.connected e)⟩
    · rw [hes, Inproc.adoptions_append]
      exact List.mem_append_left _ hp.adopted
    · rw [← hp.crossed direction e]
      exact queueOf_of_keeps hkeep (hp.crossed .incoming e) (hp.crossed .outgoing e) direction
  have hline : ∀ {line}, (∃ p e, Joined w tr p ∧ p.line e = line) →
      ∃ p e, Joined (paired w s es) (tr ++ es.map .pair) p ∧ p.line e = line := by
    rintro line ⟨p, e, hp, rfl⟩
    exact ⟨p, e, hstay hp, rfl⟩
  refine ⟨hrun, ⟨fun line hmem => ?_, fun t line ht => hline (h.owned.destroying t line ht),
    fun line ht => hline (h.owned.timeout line ht), fun q hq => ?_⟩, fun t line hmem => ?_, fun q x hmem => ?_,
    fun p hp => ?_⟩
  · rcases List.mem_append.1 hmem with hmem | hmem
    · exact hline (h.owned.returned line hmem)
    · obtain ⟨a, b, hadopted, hab⟩ := adopted_of_returned h.pairing hnext hmem
      have hcrossed := (Inproc.inv_of_run h.pairing).1.crossed a b hadopted
      obtain ⟨p, hp, hclient, hserver⟩ := exists_joined hcrossed hadopted
      rcases hab with rfl | rfl
      · exact ⟨p, .client, hstay hp, hclient⟩
      · exact ⟨p, .server, hstay hp, hserver⟩
  · obtain ⟨p, e, hp, rfl⟩ := h.owned.used q hq
    exact ⟨p, e, hstay hp, rfl⟩
  · rcases List.mem_append.1 hmem with hmem | hmem
    · exact hline (h.destroyed t line hmem)
    · simp at hmem
  · rcases List.mem_append.1 hmem with hmem | hmem
    · exact h.seen q x hmem
    · simp at hmem
  · rw [List.filterMap_append, view_pairing, List.append_nil]
    by_cases hold : Joined w tr p
    · -- the queues of a pair that there was are what they were
      have hsame : connection (paired w s es) p = connection w p := by
        simp only [connection, paired]
        congr 1
        funext e
        have hqueue := hold.connected e
        have hqueue' := hkeep.queue _ hqueue
        simp only [queue, List.getD_eq_getElem?_getD, hqueue, hqueue']
      rw [hsame]
      exact h.connections p hold
    · -- nothing of a new pair was used
      have hunqueued : ∀ e, w.used (p.queue e) = none := by
        intro e
        by_contra hused
        obtain ⟨p', e', hp', heq⟩ := h.owned.used _ hused
        exact hold ((hstay hp').eq_of_queue hrun hp heq ▸ hp')
      have hunlined : ∀ line e, (∃ p e, Joined w tr p ∧ p.line e = line) → p.line e ≠ line := by
        rintro _ e ⟨p', e', hp', rfl⟩ heq
        exact hold ((hstay hp').eq_of_line hrun hp heq.symm ▸ hp')
      have hnothing : tr.filterMap p.view = [] := by
        rw [List.filterMap_eq_nil_iff]
        intro x hx
        cases x with
        | pair _ => rfl
        | destroyed t line =>
          simp only [Pair.view, endOf_eq_none fun e => hunlined line e (h.destroyed t line hx), Option.map_none]
        | queue q x =>
          have hapart : ∀ e, p.queue e ≠ q := by
            rintro e rfl
            exact h.seen _ x hx (hunqueued e)
          simp only [Pair.view, endOf_eq_none hapart, Option.map_none]
      have hnew : connection (paired w s es) p = Connection.start (by decide) := by
        have hqueues : (fun e => (paired w s es).queue (p.queue e)) = (Connection.start (by decide)).queue := by
          funext e
          have hconnected : s.data.queues[p.queue e]? = some Inproc.connectedQueue := hp.connected e
          simp only [queue, paired, hunqueued, Option.getD_none, List.getD_eq_getElem?_getD, hconnected,
            Option.getD_some]
          rfl
        have htimeouts : (fun e => w.readTimeout (p.line e)) = fun _ => 0 := by
          funext e
          by_contra htimeout
          exact hunlined _ e (h.owned.timeout _ htimeout) rfl
        have hdestroying : (fun t => (w.destroying t).bind (endOf p.line)) = fun _ => none := by
          funext t
          cases ht : w.destroying t with
          | none => rfl
          | some line => exact endOf_eq_none fun e => hunlined line e (h.owned.destroying t line ht)
        simp only [connection, hqueues]
        exact congrArg₂ (Connection.mk _) htimeouts hdestroying
      rw [hnothing, hnew]
      exact .start

theorem inv_of_run {ok : InprocProcess τ → Label τ → Prop}
    (hrun : (machine τ).RunWhere ok start tr w) : Inv tr w := by
  refine hrun.invariant Inv inv_start ?_
  intro tr w l w' es hinv _ hnext
  have hmove := move_of_next hnext
  rcases uses_of_move hmove with ⟨l', s, es', hpair, rfl, rfl⟩ | huses
  · exact hinv.pair hpair
  · exact hinv.uses hmove huses

/-! ### Independent connections -/

omit [DecidableEq τ] in
theorem onQueue_view (hne : p.queue .client ≠ p.queue .server) (e : End) (tr : Trace τ) :
    Connection.onQueue e (tr.filterMap p.view) = onQueue (p.queue e) tr := by
  rw [Connection.onQueue, List.filterMap_filterMap]
  refine List.filterMap_congr fun x _ => ?_
  cases x with
  | pair _ => rfl
  | destroyed t line =>
    simp only [Pair.view]
    cases endOf p.line line <;> rfl
  | queue q x =>
    by_cases hq : q = p.queue e
    · subst hq
      simp [Pair.view, endOf_self hne]
    · simp only [if_neg hq]
      by_cases hpeer : q = p.queue e.peer
      · subst hpeer
        simp [Pair.view, endOf_self hne, e.peer_ne]
      · have hapart : ∀ e', p.queue e' ≠ q := by
          intro e' heq
          cases e <;> cases e' <;> first | exact hq heq.symm | exact hpeer heq.symm
        simp [Pair.view, endOf_eq_none hapart]

omit [DecidableEq τ] in
private theorem view_queue (hne : p.queue .client ≠ p.queue .server) (past future : Trace τ) (e : End)
    (x : τ × Obs DataQueue.Point DataQueue.Event) : (past ++ .queue (p.queue e) x :: future).filterMap p.view =
      past.filterMap p.view ++ .queue e x :: future.filterMap p.view := by
  rw [List.filterMap_append, List.filterMap_cons_some (b := .queue e x)]
  simp [Pair.view, endOf_self hne]

/-- A read that reports a lost connection has seen the destruction of an end, and all that was accepted. -/
private theorem lost_of_return {N : Nat} {hN : 1 ≤ N} {conn : Connection τ N}
    {past future : Connection.Trace τ} {e : End} {t : τ} {c : DataQueue.Call}
    (hrun : (Connection.machine τ N).Run (Connection.start hN)
      (past ++ .queue e (t, .event (.ret c (.error .eConnectionLost))) :: future) conn) (hc : c.buflen.isSome) :
    (∃ u e', .destroyed u e' ∈ past) ∧
      DataQueue.delivered (Connection.onQueue e past) = DataQueue.accepted (Connection.onQueue e past) := by
  have hfresh : (DataQueue.connectedNew N hN).buffer.fifo = .empty := ByteRing.fifo_new hN
  have hqueue := Connection.run_onQueue hrun e
  rw [Connection.onQueue_split] at hqueue
  obtain ⟨-, -, hlost⟩ := DataQueue.reports_of_run hfresh rfl hqueue _ _ _ rfl
  obtain ⟨hclear, hdrained⟩ := hlost rfl
  refine ⟨?_, hdrained hc⟩
  obtain ⟨u, hu⟩ := hclear rfl
  obtain ⟨x, hx, heq⟩ := List.mem_filterMap.1 hu
  cases x with
  | destroyed _ _ => cases heq
  | queue e' x =>
    simp only [Option.ite_none_right_eq_some, Option.some.injEq] at heq
    obtain ⟨rfl, rfl⟩ := heq
    obtain ⟨before, after, rfl⟩ := List.append_of_mem hx
    rw [List.append_assoc, List.cons_append] at hrun
    obtain ⟨v, e'', hv⟩ := Connection.destroyed_of_clearing hrun rfl
    exact ⟨v, e'', List.mem_append_left _ hv⟩

end Pairs

theorem line_of_endOf {number : End → Nat} {n : Nat} {e : End} (h : endOf number n = some e) : n = number e := by
  simp only [endOf] at h
  split at h
  · cases h
    assumption
  · split at h
    · cases h
      assumption
    · cases h

/-- What a read has seen that reports a lost connection: the destruction of a line of its own pair, and all that was
accepted in its direction. -/
theorem lost_of_run {ok : InprocProcess τ → Label τ → Prop} {w : InprocProcess τ} {tr past future : Trace τ}
    {p : Pair}
    (hrun : (machine τ).RunWhere ok start tr w) (hp : Joined w tr p) {e : End} {t : τ} {c : DataQueue.Call}
    (htr : tr = past ++ .queue (p.queue e) (t, .event (.ret c (.error .eConnectionLost))) :: future)
    (hc : c.buflen.isSome) : (∃ u e', .destroyed u (p.line e') ∈ past) ∧
      DataQueue.delivered (onQueue (p.queue e) past) = DataQueue.accepted (onQueue (p.queue e) past) := by
  have hinv := inv_of_run hrun
  obtain ⟨-, hqueues⟩ := hp.distinct hinv.pairing
  have hconn := hinv.connections p hp
  rw [htr, view_queue hqueues] at hconn
  obtain ⟨⟨u, e', hmem⟩, hdrained⟩ := lost_of_return hconn hc
  rw [onQueue_view hqueues] at hdrained
  refine ⟨⟨u, e', ?_⟩, hdrained⟩
  obtain ⟨x, hx, heq⟩ := List.mem_filterMap.1 hmem
  cases x with
  | pair _ => cases heq
  | queue q x => simp [Pair.view] at heq
  | destroyed t' line =>
    obtain ⟨e'', he, heq⟩ := Option.map_eq_some_iff.1 heq
    cases heq
    exact line_of_endOf he ▸ hx

/-- The queue of a pair runs by itself. -/
theorem run_onQueue {ok : InprocProcess τ → Label τ → Prop} {w : InprocProcess τ} {tr : Trace τ} {p : Pair}
    (hrun : (machine τ).RunWhere ok start tr w) (hp : Joined w tr p) (e : End) :
    (DataQueue.program InprocLine.queueSize Connection.lineCalls).machine.Run
      (.start (.connectedNew _ (by decide)) .idle) (onQueue (p.queue e) tr) (w.queue (p.queue e)) := by
  have hinv := inv_of_run hrun
  obtain ⟨-, hqueues⟩ := hp.distinct hinv.pairing
  have hqueue := Connection.run_onQueue (hinv.connections p hp) e
  rwa [onQueue_view hqueues] at hqueue

/-- In every run of a process, every line that was returned and not destroyed is one of a pair of lines that were
joined, and two pairs share no line and no queue.  What is seen of a pair is a run of a `Connection`, whatever happens
to other lines and to the registry: in each direction the bytes delivered are a prefix of those accepted, and a read
reports a lost connection only after the destruction of one of these two lines has begun, and when all that was
accepted in its direction has been delivered. -/
theorem independent_connections (tr : Trace τ) (w : InprocProcess τ) (hrun : (machine τ).Run start tr w) :
    (∀ line ∈ w.returned, ∃ p e, Joined w tr p ∧ p.line e = line) ∧
    (∀ p p' e e', Joined w tr p → Joined w tr p' → p.queue e = p'.queue e' ∨ p.line e = p'.line e' →
      p = p' ∧ e = e') ∧
    ∀ p, Joined w tr p →
      (Connection.machine τ InprocLine.queueSize).Run (Connection.start (by decide)) (tr.filterMap p.view)
        (connection w p) ∧
      (∀ e, DataQueue.delivered (onQueue (p.queue e) tr) <+: DataQueue.accepted (onQueue (p.queue e) tr)) ∧
      ∀ past future e t c,
        tr = past ++ .queue (p.queue e) (t, .event (.ret c (.error .eConnectionLost))) :: future →
        c.buflen.isSome → (∃ u e', .destroyed u (p.line e') ∈ past) ∧
          DataQueue.delivered (onQueue (p.queue e) past) = DataQueue.accepted (onQueue (p.queue e) past) := by
  have hinv := inv_of_run hrun
  refine ⟨hinv.owned.returned, fun p p' e e' hp hp' hshared => ?_, fun p hp => ?_⟩
  · obtain ⟨hlines, hqueues⟩ := hp.distinct hinv.pairing
    rcases hshared with hshared | hshared
    · obtain rfl := hp.eq_of_queue hinv.pairing hp' hshared
      have hend := endOf_self hqueues e
      rw [hshared, endOf_self hqueues e'] at hend
      exact ⟨rfl, (Option.some.inj hend).symm⟩
    · obtain rfl := hp.eq_of_line hinv.pairing hp' hshared
      have hend := endOf_self hlines e
      rw [hshared, endOf_self hlines e'] at hend
      exact ⟨rfl, (Option.some.inj hend).symm⟩
  · refine ⟨hinv.connections p hp, fun e => ?_, fun past future e t c htr hc => lost_of_run hrun hp htr hc⟩
    exact (DataQueue.conserved_of_run (ByteRing.fifo_new (by decide)) (run_onQueue hrun hp e)).isPrefix

/-- A client and an acceptor are joined, the client's line is destroyed, and a read of the other line reports it. -/
theorem independent_connections_one : ∃ tr w, (machine Bool).Run start tr w ∧
    .queue 0 (true, .event (.ret (.read 5) (.error .eConnectionLost))) ∈ tr ∧
      ∃ p e, Joined w tr p ∧ p.line e = 1 := by
  have h : (((machine Bool).exec start
      (List.flatten [[.pair (.invoke true (.waitConnection "a" 100 .enter))], List.replicate 4 (.pair (.step true)),
        [.pair (.invoke false (.createClient "a" .enter))], List.replicate 8 (.pair (.step false)),
        List.replicate 8 (.pair (.step true)), [.pair (.signal true false)], List.replicate 2 (.pair (.step true)),
        List.replicate 3 (.pair (.step false)), [.destroy false 0], List.replicate 6 (.queue 0 (.step false)),
        [.read true 1 5], List.replicate 5 (.queue 0 (.step true))])).any fun r =>
      decide (.queue 0 (true, .event (.ret (.read 5) (.error .eConnectionLost))) ∈ r.2 ∧
        1 ∈ r.1.returned)) = true := by
    decide +kernel
  obtain ⟨⟨w, tr⟩, hexec, hdecide⟩ := (Option.any_eq_true _ _).1 h
  obtain ⟨hlost, hreturned⟩ := of_decide_eq_true hdecide
  have hrun := Machine.RunWhere.of_exec hexec
  exact ⟨tr, w, hrun, hlost, (independent_connections tr w hrun).1 1 hreturned⟩

end InprocProcess

end Cppio
