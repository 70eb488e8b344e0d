import Cppio.InprocLine
import Cppio.Receiver
import Cppio.SendMessage

/-!
# Messages over an in-process connection

One thread sends messages with `sendMessage` on one end of a connection, another reads them with `readMessage` on the
other end.  Both work on one queue, which is the outgoing queue of the first end and the incoming queue of the second;
the calls interleave in any way.

`sendMessage` offers all that is left of a message in one block, and a queue refuses a block of its own size or more.
Messages that are shorter than the queue go through under every schedule (`transports_of_run`): what is left of the
sender's buffer, the bytes of its write in progress, the queue, the bytes of the read in progress and the dialogue of
the receiver together always make up the encodings of the messages not yet received.
-/

namespace Cppio

/-- The two threads. -/
inductive Party where
  | sender
  | receiver
deriving DecidableEq, Repr

/-- The number a call returns. -/
def DataQueue.Result.value : DataQueue.Result → Int
  | .bytes bs => bs.length
  | .count n => n
  | .error e => e.code
  | .void => 0

/-- The result of a read. -/
def DataQueue.Result.readResult : DataQueue.Result → ReadResult
  | .bytes bs => .ok bs
  | .error e => .error e
  | .count _ | .void => .ok []

/-- A sender and a receiver with the queue between them. -/
structure Link (N : Nat) where
  queue : DataQueue.State Party N
  /-- The buffer and the variables of the `sendMessage` in progress. -/
  sending : Option (List Byte × MessageProtocol.SendState)
  /-- The messages for which `sendMessage` is still to be called. -/
  unsent : List Message
  /-- The `readMessage` in progress. -/
  receiving : Reader (Int × Message)

namespace Link

open Monitor MessageProtocol

variable {N : Nat}

/-- A thread goes on with its protocol, or something happens at the queue. -/
inductive Label where
  | send
  | receive
  | queue (l : Monitor.Label Party DataQueue.Point)

/-- What is seen: the queue, and the results of `sendMessage` and `readMessage`. -/
inductive Event where
  | queue (x : Party × Obs DataQueue.Point DataQueue.Event)
  | sent (result : Int)
  | received (outcome : Int × Message)
deriving DecidableEq

abbrev Trace := List Event

def start (hN : 1 ≤ N) (ms : List Message) : Link N where
  queue := .start (.connectedNew N hN) .idle
  sending := none
  unsent := ms
  receiving := readMessage .empty

/-- A step of the queue alone. -/
def stepQueue (link : Link N) (l : Monitor.Label Party DataQueue.Point) :
    Option (DataQueue.State Party N × DataQueue.Trace Party) :=
  (DataQueue.program N DataQueue.dataCalls).next link.queue l

/-- A thread calls a method of its line. -/
def call (link : Link N) (p : Party) (c : DataQueue.Call) : Option (Link N × Trace) :=
  (link.stepQueue (.invoke p (.busy c .enter))).map fun (s, es) => ({ link with queue := s }, es.map .queue)

/-- The thread goes on with the result of its call. -/
def resume (link : Link N) : Party × Obs DataQueue.Point DataQueue.Event → Link N
  | (.sender, .event (.ret _ r)) =>
    { link with sending := link.sending.map fun (buffer, st) => (buffer, st.next r.value) }
  | (.receiver, .event (.ret _ r)) =>
    match link.receiving with
    | .ask _ k => { link with receiving := k r.readResult }
    | .done _ => link
  | _ => link

def next (outside : Int → Byte) (link : Link N) : Label → Option (Link N × Trace)
  | .send =>
    if link.queue.pc .sender = .idle then
      match link.sending with
      | none =>
        match link.unsent with
        | [] => none
        | m :: ms => some ({ link with sending := some (m.writeMessage, .start m), unsent := ms }, [])
      | some (buffer, st) =>
        if 0 < st.towrite then
          link.call .sender (InprocLine.write (bytesAt buffer outside st.data st.towrite.toNat))
        else some ({ link with sending := none }, [.sent 1])
    else none
  | .receive =>
    if link.queue.pc .receiver = .idle then
      match link.receiving with
      | .ask n _ => link.call .receiver (InprocLine.read 0 n)
      | .done outcome => some ({ link with receiving := readMessage .empty }, [.received outcome])
    else none
  | .queue (.invoke _ _) => none
  | .queue l => (link.stepQueue l).map fun (s, es) => (es.foldl resume { link with queue := s }, es.map .queue)

def machine (N : Nat) (outside : Int → Byte) : Machine (Link N) Label Event := ⟨next outside⟩

/-- What is seen of the queue. -/
def onQueue (tr : Trace) : DataQueue.Trace Party :=
  tr.filterMap fun
    | .queue x => some x
    | _ => none

/-- The messages of the calls of `readMessage` that returned 1. -/
def received (tr : Trace) : List Message :=
  Receiver.received (tr.filterMap fun
    | .received outcome => some outcome
    | _ => none)

theorem onQueue_append (tr tr' : Trace) : onQueue (tr ++ tr') = onQueue tr ++ onQueue tr' :=
  List.filterMap_append ..

theorem onQueue_map (es : DataQueue.Trace Party) : onQueue (es.map .queue) = es := by
  simp [onQueue, List.filterMap_map]

theorem received_append (tr tr' : Trace) : received (tr ++ tr') = received tr ++ received tr' := by
  rw [received, List.filterMap_append, Receiver.received_append]
  rfl

/-! ### What one step can do -/

open DataQueue (SameCall)

/-- The steps of a link. -/
inductive Move (outside : Int → Byte) (link : Link N) : Link N → Trace → Prop
  | begin {m ms} : link.queue.pc .sender = .idle → link.sending = none → link.unsent = m :: ms →
      Move outside link { link with sending := some (m.writeMessage, .start m), unsent := ms } []
  | write {buffer st} : link.queue.pc .sender = .idle → link.sending = some (buffer, st) → 0 < st.towrite →
      Move outside link
        { link with queue := link.queue.goto .sender
                      (.busy (.write (bytesAt buffer outside st.data st.towrite.toNat)) .enter) }
        [.queue (.sender, .call (.busy (.write (bytesAt buffer outside st.data st.towrite.toNat)) .enter))]
  | sent {buffer st} : link.queue.pc .sender = .idle → link.sending = some (buffer, st) → st.towrite ≤ 0 →
      Move outside link { link with sending := none } [.sent 1]
  | read {n k} : link.queue.pc .receiver = .idle → link.receiving = .ask n k →
      Move outside link { link with queue := link.queue.goto .receiver (.busy (.read n) .enter) }
        [.queue (.receiver, .call (.busy (.read n) .enter))]
  | received {outcome} : link.queue.pc .receiver = .idle → link.receiving = .done outcome →
      Move outside link { link with receiving := readMessage .empty } [.received outcome]
  | silent {s} : (∀ p, SameCall p link.queue s) → Move outside link { link with queue := s } []
  | took {t c n s} : link.queue.pc t = .busy c .copy → c.buflen = some n →
      (∀ p, SameCall p link.queue s) → Move outside link { link with queue := s }
        [.queue (t, .event (.took (link.queue.data.buffer.fifo.items.take n)))]
  | put {t buffer s} : link.queue.pc t = .busy (.write buffer) .copy → (∀ p, SameCall p link.queue s) →
      Move outside link { link with queue := s }
        [.queue (t, .event (.put (buffer.take link.queue.data.buffer.fifo.room)))]
  | ret {t c r s} : link.queue.pc t = .busy c (.leave r) → s.pc t = .idle →
      (∀ p, p ≠ t → SameCall p link.queue s) →
      Move outside link (resume { link with queue := s } (t, .event (.ret c r))) [.queue (t, .event (.ret c r))]

theorem call_eq {link link' : Link N} {p : Party} {c : DataQueue.Call} {es : Trace}
    (h : link.call p c = some (link', es)) :
    link' = { link with queue := link.queue.goto p (.busy c .enter) } ∧
      es = [.queue (p, .call (.busy c .enter))] := by
  obtain ⟨⟨s, es'⟩, hnext, heq⟩ := Option.map_eq_some_iff.1 h
  cases heq
  simp only [stepQueue, Program.next] at hnext
  split at hnext <;> cases hnext
  exact ⟨rfl, rfl⟩

theorem queue_eq {outside : Int → Byte} {link link' : Link N} {l : Monitor.Label Party DataQueue.Point}
    {es : Trace} (h : next outside link (.queue l) = some (link', es)) : (∀ t p, l ≠ .invoke t p) ∧
      ∃ s es', link.stepQueue l = some (s, es') ∧ link' = es'.foldl resume { link with queue := s } ∧
        es = es'.map .queue := by
  have hother : ∀ {l : Monitor.Label Party DataQueue.Point},
      (link.stepQueue l).map (fun (s, es) => (es.foldl resume { link with queue := s }, es.map Event.queue)) =
        some (link', es) → ∃ s es', link.stepQueue l = some (s, es') ∧
          link' = es'.foldl resume { link with queue := s } ∧ es = es'.map .queue := by
    intro l h
    obtain ⟨⟨s, es'⟩, hnext, heq⟩ := Option.map_eq_some_iff.1 h
    cases heq
    exact ⟨s, es', hnext, rfl, rfl⟩
  cases l with
  | invoke t p => cases h
  | step t | signal t u | wake t | expire t => exact ⟨by simp, hother h⟩

theorem move_of_next {outside : Int → Byte} {link link' : Link N} {l : Label} {es : Trace}
    (h : next outside link l = some (link', es)) : link.Move outside link' es := by
  cases l with
  | send =>
    simp only [next] at h
    split at h
    · rename_i hidle
      split at h
      · rename_i hsending
        split at h <;> cases h
        exact .begin hidle hsending ‹_›
      · rename_i buffer st hsending
        split at h
        · rename_i hpos
          obtain ⟨rfl, rfl⟩ := call_eq h
          exact .write hidle hsending hpos
        · rename_i hpos
          cases h
          exact .sent hidle hsending (Int.not_lt.1 hpos)
    · cases h
  | receive =>
    simp only [next] at h
    split at h
    · rename_i hidle
      split at h
      · rename_i n k hreceiving
        obtain ⟨rfl, rfl⟩ := call_eq h
        exact .read hidle hreceiving
      · rename_i outcome hreceiving
        cases h
        exact .received hidle hreceiving
    · cases h
  | queue l =>
    obtain ⟨hl, s, es', hnext, rfl, rfl⟩ := queue_eq h
    rcases DataQueue.step_cases hnext hl with ⟨rfl, hsame⟩ | ⟨t, c, n, hpc, hc, rfl, hsame⟩ |
      ⟨t, buffer, hpc, rfl, hsame⟩ | ⟨t, c, r, hpc, rfl, hidle, hother⟩
    · exact .silent hsame
    · cases t <;> exact .took hpc hc hsame
    · cases t <;> exact .put hpc hsame
    · exact .ret hpc hidle hother

/-! ### The queue of a link -/

@[simp] theorem resume_queue (link : Link N) (x : Party × Obs DataQueue.Point DataQueue.Event) :
    (resume link x).queue = link.queue := by
  unfold resume
  split
  · rfl
  · split <;> rfl
  · rfl

theorem foldl_resume_queue (es : DataQueue.Trace Party) (link : Link N) :
    (es.foldl resume link).queue = link.queue := by
  induction es generalizing link with
  | nil => rfl
  | cons x es ih => rw [List.foldl_cons, ih, resume_queue]

/-- The queue sees a step of its own, or nothing. -/
theorem queue_of_next {outside : Int → Byte} {link link' : Link N} {l : Label} {es : Trace}
    (h : next outside link l = some (link', es)) :
    (link'.queue = link.queue ∧ onQueue es = []) ∨
      ∃ l', (DataQueue.program N DataQueue.dataCalls).next link.queue l' = some (link'.queue, onQueue es) := by
  have hcall : ∀ {p c}, link.call p c = some (link', es) →
      ∃ l', (DataQueue.program N DataQueue.dataCalls).next link.queue l' = some (link'.queue, onQueue es) := by
    intro p c hc
    obtain ⟨⟨s, es'⟩, hnext, heq⟩ := Option.map_eq_some_iff.1 hc
    cases heq
    exact ⟨_, by rw [onQueue_map]; exact hnext⟩
  cases l with
  | send =>
    simp only [next] at h
    split at h
    · split at h
      · split at h <;> cases h
        exact .inl ⟨rfl, rfl⟩
      · split at h
        · exact .inr (hcall h)
        · cases h
          exact .inl ⟨rfl, rfl⟩
    · cases h
  | receive =>
    simp only [next] at h
    split at h
    · split at h
      · exact .inr (hcall h)
      · cases h
        exact .inl ⟨rfl, rfl⟩
    · cases h
  | queue l =>
    obtain ⟨-, s, es', hnext, rfl, rfl⟩ := queue_eq h
    exact .inr ⟨l, by rw [foldl_resume_queue, onQueue_map]; exact hnext⟩

/-- The queue of a link runs by itself. -/
theorem run_onQueue {ok : Link N → Label → Prop} {hN : 1 ≤ N} {outside : Int → Byte} {ms : List Message}
    {link : Link N} {tr : Trace} (hrun : (machine N outside).RunWhere ok (start hN ms) tr link) :
    (DataQueue.program N DataQueue.dataCalls).machine.Run (.start (.connectedNew N hN) .idle) (onQueue tr)
      link.queue :=
  hrun.project (fun link => link.queue) _ fun _ _ _ _ _ hnext => queue_of_next hnext

/-! ### The call in progress -/

/-- The bytes of an access to the buffer. -/
def moved : DataQueue.Event → List Byte
  | .put bs | .took bs => bs
  | .ret _ _ => []

/-- The bytes a thread has put into or taken out of the buffer in its call in progress. -/
def inCall (p : Party) (tr : Trace) (link : Link N) : List Byte :=
  if link.queue.pc p = .idle then [] else (own p (onQueue tr)).flatMap moved

theorem inCall_idle {p : Party} {tr : Trace} {link : Link N} (h : link.queue.pc p = .idle) : inCall p tr link = [] :=
  if_pos h

theorem inCall_busy {p : Party} {tr : Trace} {link : Link N} (h : link.queue.pc p ≠ .idle) :
    inCall p tr link = (own p (onQueue tr)).flatMap moved :=
  if_neg h

/-- A step that shows nothing of a thread, and leaves it in the call it is in, moves no bytes in its call. -/
theorem inCall_append {p : Party} {tr es : Trace} {link link' : Link N} (hsame : SameCall p link.queue link'.queue)
    (hes : ∀ x ∈ onQueue es, x.1 ≠ p) : inCall p (tr ++ es) link' = inCall p tr link := by
  simp only [inCall, hsame.idle_iff, onQueue_append, own_append_of_ne hes]

/-- Before its access to the buffer a call has moved no bytes. -/
theorem inCall_before {p : Party} {tr : Trace} {link : Link N} (hown : own p (onQueue tr) = []) :
    inCall p tr link = [] := by
  rw [inCall, hown, List.flatMap_nil, ite_self]

theorem inCall_access {p : Party} {tr : Trace} {link' : Link N} {c : DataQueue.Call} {stage : DataQueue.Stage}
    {e : DataQueue.Event} (hown : own p (onQueue tr) = []) (hbusy : link'.queue.pc p = .busy c stage) :
    inCall p (tr ++ [.queue (p, .event e)]) link' = moved e := by
  have hown' : own p (onQueue (tr ++ [.queue (p, .event e)])) = [e] := by
    rw [onQueue_append]
    simp only [onQueue, List.filterMap_cons, List.filterMap_nil, own_event] at hown ⊢
    rw [hown, List.nil_append]
  rw [inCall_busy (by rw [hbusy]; exact DataQueue.Point.noConfusion), hown', List.flatMap_singleton]

/-! ### The sender -/

/-- What is left of the buffer of the `sendMessage` in progress. -/
def rest (link : Link N) : List Byte :=
  match link.sending with
  | none => []
  | some (buffer, st) => buffer.drop st.data.toNat

/-- What holds of the sender of `ms`: its buffer is shorter than the queue, its two variables split it, it writes what
is left of it, and the bytes of the write in progress, those still to be written and those accepted make up the
encodings of the messages. -/
structure SenderOk (ms : List Message) (tr : Trace) (link : Link N) : Prop where
  unsent : ∀ m ∈ link.unsent, m.messageSize < N
  state : ∀ buffer st, link.sending = some (buffer, st) →
    ∃ d t : Nat, st = ⟨t, d⟩ ∧ d + t = buffer.length ∧ buffer.length < N
  call : ∀ c stage, link.queue.pc .sender = .busy c stage → link.sending ≠ none ∧ c = .write link.rest
  stream : ∃ later, link.rest ++ encodings link.unsent = inCall .sender tr link ++ later ∧
    DataQueue.accepted (onQueue tr) ++ later = encodings ms

/-- Steps of the receiver leave the sender as it is. -/
theorem SenderOk.other {ms : List Message} {tr es : Trace} {link link' : Link N} (h : SenderOk ms tr link)
    (hsending : link'.sending = link.sending) (hunsent : link'.unsent = link.unsent)
    (hsame : SameCall .sender link.queue link'.queue) (hes : ∀ x ∈ onQueue es, x.1 ≠ .sender)
    (haccepted : DataQueue.accepted (onQueue es) = []) : SenderOk ms (tr ++ es) link' := by
  have hrest : link'.rest = link.rest := by rw [rest, hsending, rest]
  refine ⟨by rw [hunsent]; exact h.unsent, by rw [hsending]; exact h.state, fun c st hbusy => ?_, ?_⟩
  · obtain ⟨st', hst'⟩ := hsame.busy hbusy
    rw [hsending, hrest]
    exact h.call c st' hst'
  · rw [hrest, hunsent, inCall_append hsame hes, onQueue_append, DataQueue.accepted_append, haccepted,
      List.append_nil]
    exact h.stream

section

variable {ms : List Message} {tr es : Trace} {link link' : Link N} {outside : Int → Byte}

private theorem rest_eq {buffer : List Byte} {st : SendState} {d t : Nat} (h : link.sending = some (buffer, st))
    (hst : st = ⟨t, d⟩) : link.rest = buffer.drop d := by
  rw [rest, h, hst]
  rfl

/-- The sender begins to send the next message. -/
private theorem SenderOk.began (hN : N ≤ 2 ^ 31) (h : SenderOk ms tr link) {m : Message} {later : List Message}
    (hidle : link.queue.pc .sender = .idle) (hsending : link.sending = none) (hunsent : link.unsent = m :: later) :
    SenderOk ms (tr ++ []) { link with sending := some (m.writeMessage, .start m), unsent := later } := by
  have hsize : m.messageSize < N := h.unsent m (by rw [hunsent]; exact List.mem_cons_self ..)
  refine ⟨fun m' hm' => h.unsent m' (by rw [hunsent]; exact List.mem_cons_of_mem _ hm'), ?_, ?_, ?_⟩
  · intro buffer st heq
    cases heq
    refine ⟨0, m.messageSize, ?_, by rw [Nat.zero_add, m.length_writeMessage], by rwa [m.length_writeMessage]⟩
    rw [SendState.start, toInt32_of_lt (by omega)]
    rfl
  · intro c stage hbusy
    rw [hidle] at hbusy
    cases hbusy
  · obtain ⟨later', hlater, hstream⟩ := h.stream
    refine ⟨later', ?_, by simpa using hstream⟩
    rw [rest, hsending, hunsent, List.nil_append, inCall_idle hidle, List.nil_append] at hlater
    simp only [inCall, hidle, ↓reduceIte, List.nil_append]
    rw [← hlater]
    rfl

/-- The write of the sender puts what fits into the buffer. -/
private theorem SenderOk.put (h : SenderOk ms tr link) {buffer : List Byte} {s : DataQueue.State Party N}
    (hpc : link.queue.pc .sender = .busy (.write buffer) .copy) (hsame : ∀ p, SameCall p link.queue s)
    (hown : own .sender (onQueue tr) = []) :
    SenderOk ms (tr ++ [.queue (.sender, .event (.put (buffer.take link.queue.data.buffer.fifo.room)))])
      { link with queue := s } := by
  obtain ⟨hsome, heq⟩ := h.call _ _ hpc
  cases heq
  obtain ⟨stage', hstage'⟩ := (hsame .sender).2 _ _ hpc
  refine ⟨h.unsent, h.state, fun c stage hbusy => ?_, ?_⟩
  · cases hstage'.symm.trans hbusy
    exact ⟨hsome, rfl⟩
  · obtain ⟨later, hlater, hstream⟩ := h.stream
    rw [inCall_before hown, List.nil_append] at hlater
    refine ⟨link.rest.drop link.queue.data.buffer.fifo.room ++ encodings link.unsent, ?_, ?_⟩
    · rw [inCall_access hown hstage', moved, ← List.append_assoc, List.take_append_drop]
      rfl
    · rw [onQueue_append, DataQueue.accepted_append, ← hstream, ← hlater, List.append_assoc,
        List.append_cancel_left_eq]
      simp only [onQueue, DataQueue.accepted, DataQueue.putBytes, List.filterMap_cons, List.filterMap_nil,
        List.flatMap_singleton]
      rw [← List.append_assoc, List.take_append_drop]

/-- The sender goes on after its write has returned `n`. -/
private theorem SenderOk.wrote (hN : N ≤ 2 ^ 31) (h : SenderOk ms tr link) {c : DataQueue.Call} {n : Nat}
    {s : DataQueue.State Party N} (hpc : link.queue.pc .sender = .busy c (.leave (.count n)))
    (haccounts : DataQueue.Accounts N c (.count n) (own .sender (onQueue tr))) (hidle : s.pc .sender = .idle) :
    SenderOk ms (tr ++ [.queue (.sender, .event (.ret c (.count n)))])
      (resume { link with queue := s } (.sender, .event (.ret c (.count n)))) := by
  obtain ⟨hsome, rfl⟩ := h.call _ _ hpc
  obtain ⟨⟨buffer, st⟩, hsending⟩ := Option.ne_none_iff_exists'.1 hsome
  obtain ⟨d, t, hst, hdt, hlt⟩ := h.state buffer st hsending
  have hrest := rest_eq hsending hst
  rw [hrest] at haccounts
  obtain ⟨hle, -, hown⟩ := haccounts
  rw [List.length_drop] at hle
  have hnext : st.next n = ⟨(t - n : Nat), (d + n : Nat)⟩ := by
    rw [hst]
    exact next_of_le (by omega) (by omega)
  have hsending' : (resume { link with queue := s } (.sender, .event (.ret (.write link.rest) (.count n)))).sending =
      some (buffer, st.next n) := by
    simp only [resume, hsending, Option.map_some]
    rfl
  obtain ⟨later, hlater, hstream⟩ := h.stream
  refine ⟨h.unsent, fun buffer' st' heq => ?_, fun c stage hbusy => ?_, later, ?_, ?_⟩
  · rw [hsending'] at heq
    cases heq
    exact ⟨d + n, t - n, hnext, by omega, hlt⟩
  · rw [resume_queue, hidle] at hbusy
    cases hbusy
  · have hinCall : inCall .sender tr link = (buffer.drop d).take n := by
      rw [inCall_busy (by rw [hpc]; exact DataQueue.Point.noConfusion), hown, List.flatMap_singleton, moved]
    have hrest' := rest_eq hsending' hnext
    rw [hrest, hinCall] at hlater
    have hsplit : buffer.drop d = (buffer.drop d).take n ++ buffer.drop (d + n) := by
      rw [← List.drop_drop, List.take_append_drop]
    rw [hsplit, List.append_assoc, List.take_left' (by simp; omega), List.append_cancel_left_eq] at hlater
    rw [hrest', inCall_idle (by rw [resume_queue]; exact hidle), List.nil_append]
    exact hlater
  · rw [onQueue_append, DataQueue.accepted_append]
    simpa [onQueue, DataQueue.accepted, DataQueue.putBytes] using hstream

/-- A write of the sender is shorter than the queue. -/
private theorem SenderOk.not_refused (h : SenderOk ms tr link) {c : DataQueue.Call} {stage : DataQueue.Stage}
    (hpc : link.queue.pc .sender = .busy c stage) {accesses : List DataQueue.Event}
    (haccounts : DataQueue.Accounts N c (.error .eTooBigBuffer) accesses) : False := by
  obtain ⟨hsome, rfl⟩ := h.call _ _ hpc
  obtain ⟨⟨buffer, st⟩, hsending⟩ := Option.ne_none_iff_exists'.1 hsome
  obtain ⟨d, t, hst, hdt, hlt⟩ := h.state buffer st hsending
  have hle : N ≤ link.rest.length := haccounts.1
  rw [rest_eq hsending hst, List.length_drop] at hle
  omega

/-- Every step keeps what holds of the sender. -/
theorem SenderOk.step (hN : N ≤ 2 ^ 31) (h : SenderOk ms tr link)
    (hassert : DataQueue.Assertion DataQueue.dataCalls (link.queue.pc .sender) (own .sender (onQueue tr))
      link.queue.data)
    (hconnected : link.queue.data.connected = true)
    (hreads : ∀ c stage, link.queue.pc .receiver = .busy c stage → ∃ n, c = .read n)
    (hmove : link.Move outside link' es) : SenderOk ms (tr ++ es) link' := by
  cases hmove with
  | begin hidle hsending hunsent => exact h.began hN hidle hsending hunsent
  | @write buffer st hidle hsending hpos =>
    obtain ⟨d, t, hst, hdt, hlt⟩ := h.state buffer st hsending
    have hbytes : bytesAt buffer outside st.data st.towrite.toNat = link.rest := by
      rw [rest_eq hsending hst, hst]
      exact bytesAt_eq_drop hdt
    rw [hbytes]
    refine ⟨h.unsent, h.state, fun c stage hbusy => ?_, ?_⟩
    · cases (State.goto_self ..).symm.trans hbusy
      refine ⟨?_, rfl⟩
      rw [hsending]
      exact Option.some_ne_none _
    · obtain ⟨later, hlater, hstream⟩ := h.stream
      rw [inCall_idle hidle, List.nil_append] at hlater
      refine ⟨later, ?_, ?_⟩
      · rw [inCall, onQueue_append]
        simp only [onQueue, List.filterMap_cons, List.filterMap_nil, own_call, List.flatMap_nil, ite_self,
          List.nil_append]
        exact hlater
      · rw [onQueue_append, DataQueue.accepted_append]
        simpa [onQueue, DataQueue.accepted, DataQueue.putBytes] using hstream
  | @sent buffer st hidle hsending hle =>
    obtain ⟨d, t, hst, hdt, hlt⟩ := h.state buffer st hsending
    refine ⟨h.unsent, (fun _ _ heq => by cases heq), fun c stage hbusy => ?_, ?_⟩
    · rw [hidle] at hbusy
      cases hbusy
    · -- nothing is left of the buffer
      rw [hst] at hle
      have hnil : link.rest = [] := by
        rw [rest_eq hsending hst]
        exact List.drop_eq_nil_of_le (by simp only at hle; omega)
      obtain ⟨later, hlater, hstream⟩ := h.stream
      rw [hnil, inCall_idle hidle, List.nil_append] at hlater
      refine ⟨later, ?_, ?_⟩
      · simp only [inCall, hidle, ↓reduceIte, List.nil_append]
        exact hlater
      · rw [onQueue_append]
        simpa [onQueue] using hstream
  | @read n k hidle hreceiving =>
    have hsender := link.queue.goto_of_ne (show Party.sender ≠ .receiver by decide) (.busy (.read n) .enter)
    exact h.other rfl rfl (.of_eq hsender) (by simp [onQueue]) rfl
  | received hidle hreceiving => exact h.other rfl rfl (.of_eq rfl) (by simp [onQueue]) rfl
  | silent hsame => exact h.other rfl rfl (hsame .sender) (by simp [onQueue]) rfl
  | @took t c n s hpc hc hsame =>
    cases t with
    | sender =>
      obtain ⟨-, rfl⟩ := h.call _ _ hpc
      cases hc
    | receiver => exact h.other rfl rfl (hsame .sender) (by simp [onQueue]) rfl
  | @put t buffer s hpc hsame =>
    cases t with
    | receiver =>
      obtain ⟨n, hn⟩ := hreads _ _ hpc
      cases hn
    | sender =>
      rw [hpc] at hassert
      exact h.put hpc hsame hassert.2.2
  | @ret t c r s hpc hidle hother =>
    cases t with
    | receiver =>
      refine h.other ?_ ?_ ?_ (by simp [onQueue]) rfl
      · simp only [resume]
        split <;> rfl
      · simp only [resume]
        split <;> rfl
      · rw [resume_queue]
        exact hother .sender (by decide)
    | sender =>
      rw [hpc] at hassert
      obtain ⟨-, haccounts, hlost⟩ := hassert
      obtain ⟨hsome, rfl⟩ := h.call _ _ hpc
      cases r with
      | bytes bs => exact haccounts.elim
      | void => exact haccounts.elim
      | count n => exact h.wrote hN hpc haccounts hidle
      | error e =>
        cases e with
        | eTimeout => exact haccounts.elim
        | eUnknown => exact haccounts.elim
        | eTooBigBuffer => exact (h.not_refused hpc haccounts).elim
        | eConnectionLost =>
          have hfalse := (hlost rfl).2 rfl
          rw [hconnected] at hfalse
          cases hfalse

/-! ### The receiver -/

/-- What holds of the receiver of `ms`: its read in progress is the one `readMessage` asks for, the bytes of this read
and those taken before make up what was delivered, and `readMessage` waits for the rest of the first message that is
not yet received. -/
structure ReceiverOk (ms : List Message) (tr : Trace) (link : Link N) : Prop where
  call : ∀ c stage, link.queue.pc .receiver = .busy c stage → ∃ n k, link.receiving = .ask n k ∧ c = .read n
  stream : ∃ taken pending todo, DataQueue.delivered (onQueue tr) = taken ++ inCall .receiver tr link ∧
    taken ++ pending = encodings ms ∧ received tr ++ todo = ms ∧ Receiver.Awaits link.receiving pending todo ∧
    (todo = [] → link.receiving = readMessage .empty)

/-- Steps of the sender leave the receiver as it is. -/
theorem ReceiverOk.other (h : ReceiverOk ms tr link) (hreceiving : link'.receiving = link.receiving)
    (hsame : SameCall .receiver link.queue link'.queue) (hes : ∀ x ∈ onQueue es, x.1 ≠ .receiver)
    (hdelivered : DataQueue.delivered (onQueue es) = []) (hreceived : received es = []) :
    ReceiverOk ms (tr ++ es) link' := by
  refine ⟨fun c st hbusy => ?_, ?_⟩
  · obtain ⟨st', hst'⟩ := hsame.busy hbusy
    rw [hreceiving]
    exact h.call c st' hst'
  · rw [hreceiving, inCall_append hsame hes, onQueue_append, DataQueue.delivered_append, hdelivered,
      List.append_nil, received_append, hreceived, List.append_nil]
    exact h.stream

/-- The receiver has a message and calls `readMessage` again. -/
private theorem ReceiverOk.finished (hms : ∀ m ∈ ms, m.Encodable) (h : ReceiverOk ms tr link)
    (hidle : link.queue.pc .receiver = .idle) {outcome : Int × Message}
    (hreceiving : link.receiving = .done outcome) :
    ReceiverOk ms (tr ++ [.received outcome]) { link with receiving := readMessage .empty } := by
  obtain ⟨taken, pending, todo, hdelivered, hsplit, htodo, hawaits, hfresh⟩ := h.stream
  cases todo with
  | nil =>
    -- a fresh call is not over before it has read something
    have htakes := reads_writeMessage (show Message.empty.Encodable by decide)
    rw [← hfresh rfl, hreceiving] at htakes
    exact absurd htakes.1 (by decide)
  | cons m later =>
    obtain ⟨rest, htakes, rfl⟩ := hawaits
    rw [hreceiving] at htakes
    obtain ⟨rfl, rfl⟩ := htakes
    have hlater : ∀ m' ∈ later, m'.Encodable := fun m' hm' => hms m' (by
      rw [← htodo]
      exact List.mem_append_right _ (List.mem_cons_of_mem _ hm'))
    refine ⟨fun c stage hbusy => ?_, taken, encodings later, later, ?_, hsplit, ?_, Receiver.awaits_fresh hlater,
      fun _ => rfl⟩
    · rw [hidle] at hbusy
      cases hbusy
    · rw [inCall_idle hidle] at hdelivered
      rw [inCall, if_pos hidle, onQueue_append, DataQueue.delivered_append, hdelivered]
      simp [onQueue, DataQueue.delivered]
    · rw [received_append, List.append_assoc]
      exact htodo

/-- The read of the receiver takes bytes out of the buffer. -/
private theorem ReceiverOk.took (h : ReceiverOk ms tr link) {c : DataQueue.Call} {s : DataQueue.State Party N}
    (hpc : link.queue.pc .receiver = .busy c .copy) (hsame : ∀ p, SameCall p link.queue s)
    (hown : own .receiver (onQueue tr) = []) (bs : List Byte) :
    ReceiverOk ms (tr ++ [.queue (.receiver, .event (.took bs))]) { link with queue := s } := by
  obtain ⟨stage', hstage'⟩ := (hsame .receiver).2 _ _ hpc
  refine ⟨fun c' stage hbusy => ?_, ?_⟩
  · cases hstage'.symm.trans hbusy
    exact h.call _ _ hpc
  · obtain ⟨taken, pending, todo, hdelivered, hsplit, htodo, hawaits, hfresh⟩ := h.stream
    refine ⟨taken, pending, todo, ?_, hsplit, ?_, hawaits, hfresh⟩
    · rw [inCall_before hown, List.append_nil] at hdelivered
      rw [inCall_access hown hstage', onQueue_append, DataQueue.delivered_append, hdelivered]
      simp [onQueue, DataQueue.delivered, DataQueue.tookBytes, moved]
    · rw [received_append]
      simpa [received, Receiver.received] using htodo

/-- The receiver goes on after its read has returned `bs`. -/
private theorem ReceiverOk.gotBytes (hN : N ≤ 2 ^ 31) (h : ReceiverOk ms tr link)
    (hfirst : DataQueue.delivered (onQueue tr) <+: encodings ms) {c : DataQueue.Call} {bs : List Byte}
    {s : DataQueue.State Party N} (hpc : link.queue.pc .receiver = .busy c (.leave (.bytes bs)))
    (haccounts : DataQueue.Accounts N c (.bytes bs) (own .receiver (onQueue tr))) (hidle : s.pc .receiver = .idle) :
    ReceiverOk ms (tr ++ [.queue (.receiver, .event (.ret c (.bytes bs)))])
      (resume { link with queue := s } (.receiver, .event (.ret c (.bytes bs)))) := by
  obtain ⟨n, k, hreceiving, rfl⟩ := h.call _ _ hpc
  obtain ⟨taken, pending, todo, hdelivered, hsplit, htodo, hawaits, hfresh⟩ := h.stream
  obtain ⟨hle, hlt, hne, hown⟩ := haccounts
  have hinCall : inCall .receiver tr link = bs := by
    rw [inCall_busy (by rw [hpc]; exact DataQueue.Point.noConfusion), hown, List.flatMap_singleton, moved]
  rw [hinCall] at hdelivered
  rw [hdelivered, ← hsplit, List.prefix_append_right_inj] at hfirst
  obtain ⟨pending', rfl⟩ := hfirst
  have hreceiving' : (resume { link with queue := s } (.receiver, .event (.ret (.read n) (.bytes bs)))).receiving =
      k (.ok bs) := by
    simp only [resume, hreceiving]
    rfl
  have hpos : 0 < n := by
    cases todo with
    | nil =>
      have hgives := givesUp_readMessage .empty
      rw [← hfresh rfl, hreceiving] at hgives
      exact hgives.1
    | cons m later =>
      obtain ⟨rest, htakes, -⟩ := hawaits
      rw [hreceiving] at htakes
      exact htakes.ask_pos
  refine ⟨fun c stage hbusy => ?_, taken ++ bs, pending', todo, ?_, by rw [List.append_assoc, hsplit], ?_, ?_, ?_⟩
  · rw [resume_queue, hidle] at hbusy
    cases hbusy
  · rw [inCall_idle (by rw [resume_queue]; exact hidle), onQueue_append, DataQueue.delivered_append, hdelivered]
    simp [onQueue, DataQueue.delivered, DataQueue.tookBytes]
  · rw [received_append]
    simpa [received, Receiver.received] using htodo
  · cases todo with
    | nil => exact absurd (List.append_eq_nil_iff.1 hawaits).1 (hne hpos)
    | cons m later =>
      obtain ⟨rest, htakes, hrest⟩ := hawaits
      rw [hreceiving] at htakes
      have hbytes : bs <+: rest :=
        List.prefix_of_prefix_length_le ⟨pending', hrest⟩ (List.prefix_append _ _) (hle.trans htakes.ask_le)
      obtain ⟨rest', rfl⟩ := hbytes
      rw [List.append_assoc, List.append_cancel_left_eq] at hrest
      rw [hreceiving']
      exact ⟨rest', htakes.next (hne hpos) hle (fitsInt_of_lt (hne hpos) (by omega)), hrest⟩
  · rintro rfl
    exact absurd (List.append_eq_nil_iff.1 hawaits).1 (hne hpos)

/-- Every step keeps what holds of the receiver. -/
theorem ReceiverOk.step (hN : N ≤ 2 ^ 31) (hms : ∀ m ∈ ms, m.Encodable) (h : ReceiverOk ms tr link)
    (hassert :
      DataQueue.Assertion DataQueue.dataCalls (link.queue.pc .receiver) (own .receiver (onQueue tr)) link.queue.data)
    (hconnected : link.queue.data.connected = true) (hfirst : DataQueue.delivered (onQueue tr) <+: encodings ms)
    (hwrites : ∀ c stage, link.queue.pc .sender = .busy c stage → ∃ bytes, c = .write bytes)
    (hmove : link.Move outside link' es) : ReceiverOk ms (tr ++ es) link' := by
  cases hmove with
  | begin hidle hsending hunsent => exact h.other rfl (.of_eq rfl) (by simp [onQueue]) rfl rfl
  | @write buffer st hidle hsending hpos =>
    have hreceiver := link.queue.goto_of_ne (show Party.receiver ≠ .sender by decide)
      (.busy (.write (bytesAt buffer outside st.data st.towrite.toNat)) .enter)
    exact h.other rfl (.of_eq hreceiver) (by simp [onQueue]) rfl rfl
  | sent hidle hsending hle => exact h.other rfl (.of_eq rfl) (by simp [onQueue]) rfl rfl
  | @read n k hidle hreceiving =>
    refine ⟨fun c stage hbusy => ?_, ?_⟩
    · cases (State.goto_self ..).symm.trans hbusy
      exact ⟨n, k, hreceiving, rfl⟩
    · obtain ⟨taken, pending, todo, hdelivered, hsplit, htodo, hawaits, hfresh⟩ := h.stream
      rw [inCall_idle hidle] at hdelivered
      refine ⟨taken, pending, todo, ?_, hsplit, ?_, hawaits, hfresh⟩
      · rw [inCall, onQueue_append, DataQueue.delivered_append, hdelivered]
        simp [onQueue, DataQueue.delivered, DataQueue.tookBytes]
      · rw [received_append]
        simpa [received, Receiver.received] using htodo
  | received hidle hreceiving => exact h.finished hms hidle hreceiving
  | silent hsame => exact h.other rfl (hsame .receiver) (by simp [onQueue]) rfl rfl
  | @put t buffer s hpc hsame =>
    cases t with
    | receiver =>
      obtain ⟨n, k, -, hread⟩ := h.call _ _ hpc
      cases hread
    | sender => exact h.other rfl (hsame .receiver) (by simp [onQueue]) rfl rfl
  | @took t c n s hpc hc hsame =>
    cases t with
    | sender =>
      obtain ⟨bytes, rfl⟩ := hwrites _ _ hpc
      cases hc
    | receiver =>
      rw [hpc] at hassert
      exact h.took hpc hsame hassert.2.2 _
  | @ret t c r s hpc hidle hother =>
    cases t with
    | sender =>
      refine h.other rfl ?_ (by simp [onQueue]) rfl rfl
      rw [resume_queue]
      exact hother .receiver (by decide)
    | receiver =>
      rw [hpc] at hassert
      obtain ⟨-, haccounts, hlost⟩ := hassert
      obtain ⟨n, k, -, rfl⟩ := h.call _ _ hpc
      cases r with
      | bytes bs => exact h.gotBytes hN hfirst hpc haccounts hidle
      | count n => exact haccounts.elim
      | void => exact haccounts.elim
      | error e =>
        cases e with
        | eTimeout => exact haccounts.elim
        | eUnknown => exact haccounts.elim
        | eTooBigBuffer => exact haccounts.elim
        | eConnectionLost =>
          have hfalse := (hlost rfl).2 rfl
          rw [hconnected] at hfalse
          cases hfalse

end

/-! ### Messages shorter than the queue -/

/-- No call is refused because of its size, and the messages received are, in order, the first of those sent. -/
def Transports (ms : List Message) (tr : Trace) : Prop :=
  (∀ p c, Event.queue (p, .event (.ret c (.error .eTooBigBuffer))) ∉ tr) ∧ received tr <+: ms

/-- What holds of a link in every run. -/
structure Inv (ms : List Message) (tr : Trace) (link : Link N) : Prop where
  sender : SenderOk ms tr link
  receiver : ReceiverOk ms tr link
  accepts : ∀ p c, Event.queue (p, .event (.ret c (.error .eTooBigBuffer))) ∉ tr

private theorem inv_start (hN : 1 ≤ N) {ms : List Message} (hlt : ∀ m ∈ ms, m.messageSize < N)
    (hms : ∀ m ∈ ms, m.Encodable) : Inv ms [] (start hN ms) where
  sender := {
    unsent := hlt
    state := by
      intro buffer st h
      cases h
    call := by
      intro c stage h
      cases h
    stream := ⟨encodings ms, rfl, rfl⟩ }
  receiver := {
    call := by
      intro c stage h
      cases h
    stream := ⟨[], encodings ms, ms, rfl, rfl, rfl, Receiver.awaits_fresh hms, fun _ => rfl⟩ }
  accepts := by simp

theorem inv_of_run {ok : Link N → Label → Prop} (hN : 1 ≤ N) (hN' : N ≤ 2 ^ 31) {outside : Int → Byte}
    {ms : List Message} (hlt : ∀ m ∈ ms, m.messageSize < N) {tr : Trace} {link : Link N}
    (hrun : (machine N outside).RunWhere ok (start hN ms) tr link) : Inv ms tr link := by
  have hms : ∀ m ∈ ms, m.Encodable := fun m hm =>
    Message.encodable_of_messageSize_lt (by have := hlt m hm; omega)
  induction hrun with
  | start => exact inv_start hN hlt hms
  | @step tr link l link' es hrun _ hnext ih =>
    have hqueue := run_onQueue hrun
    have hassert := DataQueue.assertion_of_run hqueue
    have hconnected := DataQueue.connected_of_run rfl hqueue
    have hconserved := DataQueue.conserved_of_run (ByteRing.fifo_new hN) hqueue
    have hmove := move_of_next hnext
    -- what is delivered was accepted, and what is accepted was sent
    obtain ⟨later, -, hstream⟩ := ih.sender.stream
    have hfirst : DataQueue.delivered (onQueue tr) <+: encodings ms :=
      hconserved.isPrefix.trans ⟨later, hstream⟩
    have hreads : ∀ c stage, link.queue.pc .receiver = .busy c stage → ∃ n, c = .read n := by
      intro c stage hbusy
      obtain ⟨n, k, -, hc⟩ := ih.receiver.call c stage hbusy
      exact ⟨n, hc⟩
    have hwrites : ∀ c stage, link.queue.pc .sender = .busy c stage → ∃ bytes, c = .write bytes := by
      intro c stage hbusy
      exact ⟨link.rest, (ih.sender.call c stage hbusy).2⟩
    refine ⟨ih.sender.step hN' (hassert .sender) hconnected hreads hmove,
      ih.receiver.step hN' hms (hassert .receiver) hconnected hfirst hwrites hmove, fun p c hmem => ?_⟩
    rcases List.mem_append.1 hmem with hmem | hmem
    · exact ih.accepts p c hmem
    · cases hmove with
      | @ret t c' r s hpc hidle hother =>
        cases List.mem_singleton.1 hmem
        have haccounts := hassert p
        rw [hpc] at haccounts
        cases p with
        | sender => exact ih.sender.not_refused hpc haccounts.2.1
        | receiver =>
          obtain ⟨n, rfl⟩ := hreads _ _ hpc
          exact haccounts.2.1
      | _ => simp at hmem

/-- Messages shorter than the queue go through. -/
theorem transports_of_run {ok : Link N → Label → Prop} (hN : 1 ≤ N) (hN' : N ≤ 2 ^ 31) {outside : Int → Byte}
    {ms : List Message} (hlt : ∀ m ∈ ms, m.messageSize < N) {tr : Trace} {link : Link N}
    (hrun : (machine N outside).RunWhere ok (start hN ms) tr link) : Transports ms tr := by
  have hinv := inv_of_run hN hN' hlt hrun
  obtain ⟨taken, pending, todo, -, -, htodo, -⟩ := hinv.receiver.stream
  exact ⟨hinv.accepts, ⟨todo, htodo⟩⟩

end Link

end Cppio
