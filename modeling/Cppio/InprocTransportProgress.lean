import Cppio.DataQueueProgress
import Cppio.InprocTransport

/-!
# Messages over an in-process connection arrive

`Cppio.InprocTransport` says that a receiver gets nothing but what was sent.  Messages shorter than the queue do
arrive, under every schedule (`delivers_all`): the schedule comes to an end, whatever the order of the steps, and at
its end every message is received and every `sendMessage` has returned 1.

That schedules end is a matter of counting.  A thread that is awake has a bounded number of steps before it moves a
byte or falls asleep (`rank`); moving a byte pays for the steps after it and for those of the other thread, if that
one is woken (`potential_of_next`).  Only spurious wake-ups are not paid for, so the bound counts them.  That nothing
is left undone rests on `DataQueue.no_deadlock_of_one_reader`.
-/

namespace Cppio

namespace Link

open Monitor MessageProtocol

variable {N : Nat}

/-- A wake-up that nobody asked for. -/
def isWake : Label → Bool
  | .queue (.wake _) => true
  | _ => false

/-- The results of the calls of `sendMessage`. -/
def results (tr : Trace) : List Int :=
  tr.filterMap fun
    | .sent result => some result
    | _ => none

theorem results_append (tr tr' : Trace) : results (tr ++ tr') = results tr ++ results tr' :=
  List.filterMap_append ..

/-- `readMessage` begins with the number of frames. -/
theorem asks_readMessage (m : Message) : ∃ k, readMessage m = .ask 4 k := by
  rw [readMessage, readLoop, if_pos (by decide)]
  exact ⟨_, rfl⟩

/-! ### Ranks -/

/-- The steps of a write until it falls asleep or has put its bytes into the buffer; and from there to the end of the
call, with those of a reader that it wakes. -/
def writeRank : DataQueue.Stage → Nat
  | .copy => 2
  | .recheckConnected => 3
  | .recheck => 4
  | .wait => 4
  | .predicate => 5
  | .relock => 6
  | .connected => 6
  | .test => 7
  | .size => 8
  | .enter => 9
  | .leave _ => 11
  | .notifyReaders _ => 19
  | _ => 0

/-- The steps of a read until it falls asleep or has taken bytes out of the buffer, with those of a writer that it
wakes; and the end of the call. -/
def readRank : DataQueue.Stage → Nat
  | .wait => 2
  | .connected => 3
  | .copy => 3
  | .test => 4
  | .recheckConnected => 5
  | .recheck => 6
  | .relock => 7
  | .notifyWriters => 12
  | .enter => 13
  | .leave _ => 16
  | _ => 0

/-- The number of steps that a step at this point may give to the other thread. -/
def wakes : DataQueue.Stage → Nat
  | .notifyReaders _ | .notifyWriters => 7
  | _ => 0

def rank (link : Link N) : Party → Nat
  | .sender =>
    match link.queue.pc .sender with
    | .busy _ st => writeRank st
    | .idle => if link.sending.isNone then 0 else 10
  | .receiver =>
    match link.queue.pc .receiver with
    | .busy _ st => readRank st
    | .idle =>
      match link.receiving with
      | .ask _ _ => 14
      | .done _ => 15

/-- A thread that sleeps has no steps. -/
def due (link : Link N) (p : Party) : Nat := if link.queue.Awake p then link.rank p else 0

/-- The bytes still to go into the buffer and out of it, the messages still to be sent, and the steps of the threads.
-/
def potential (ms : List Message) (tr : Trace) (link : Link N) : Nat :=
  18 * ((encodings ms).length - (DataQueue.accepted (onQueue tr)).length) +
    14 * ((encodings ms).length - (DataQueue.delivered (onQueue tr)).length) + 11 * link.unsent.length +
    link.due .sender + link.due .receiver

/-- One step of a write. -/
theorem writeRank_of_after {buffer : List Byte} (hne : buffer ≠ []) (hlt : buffer.length < N)
    {st : DataQueue.Stage} {k : DataQueue.Point} {q q' : DataQueue N} {h es : List DataQueue.Event}
    (hassert : DataQueue.Assertion DataQueue.dataCalls (.busy (.write buffer) st) h q)
    (hconnected : q.connected = true)
    (hafter : (DataQueue.code (.busy (.write buffer) st) q).after q = some (k, q', es)) :
    (∃ r, st = .leave r ∧ k = .idle) ∨ ∃ st', k = .busy (.write buffer) st' ∧
      (if st = .wait then 0 else writeRank st') + wakes st + 1 ≤ writeRank st + 18 * (es.flatMap moved).length := by
  obtain ⟨-, hat⟩ := hassert
  have hsize := q.buffer.size_eq
  cases st with
  | leave r =>
    cases hafter
    exact .inl ⟨r, rfl, rfl⟩
  | size =>
    cases hafter
    have hfits : ¬ q.buffer.ring.size ≤ buffer.length := by omega
    exact .inr ⟨_, rfl, by rw [if_neg hfits]; decide⟩
  | copy =>
    cases hafter
    refine .inr ⟨_, rfl, ?_⟩
    have hroom : 0 < q.buffer.fifo.room := hat.1
    have hlen := List.length_pos_iff.2 hne
    rw [if_neg DataQueue.Stage.noConfusion, DataQueue.take_count]
    simp only [moved, List.flatMap_singleton, List.length_take, writeRank, wakes]
    omega
  | connected | recheckConnected =>
    cases hafter
    exact .inr ⟨_, rfl, by rw [if_pos hconnected]; decide⟩
  | test | recheck =>
    cases hafter
    refine .inr ⟨_, rfl, ?_⟩
    by_cases hroom : q.availableWriteSize = 0 <;> simp only [hroom, if_true, if_false] <;> decide
  | predicate =>
    cases hafter
    refine .inr ⟨_, rfl, ?_⟩
    by_cases hroom : 0 < q.availableWriteSize <;> simp only [hroom, if_true, if_false] <;> decide
  | wait | relock | enter =>
    cases hafter
    exact .inr ⟨_, rfl, by decide⟩
  | notifyReaders n =>
    cases hafter
    exact .inr ⟨_, rfl, Nat.le_refl _⟩
  | _ => cases hafter

/-- One step of a read. -/
theorem readRank_of_after {n : Nat} (hn : 0 < n) {st : DataQueue.Stage} {k : DataQueue.Point} {q q' : DataQueue N}
    {h es : List DataQueue.Event} (hassert : DataQueue.Assertion DataQueue.dataCalls (.busy (.read n) st) h q)
    (hconnected : q.connected = true)
    (hafter : (DataQueue.code (.busy (.read n) st) q).after q = some (k, q', es)) :
    (∃ r, st = .leave r ∧ k = .idle) ∨ ∃ st', k = .busy (.read n) st' ∧
      (if st = .wait then 0 else readRank st') + wakes st + 1 ≤ readRank st + 14 * (es.flatMap moved).length := by
  obtain ⟨-, hat⟩ := hassert
  cases st with
  | leave r =>
    cases hafter
    exact .inl ⟨r, rfl, rfl⟩
  | copy =>
    cases hafter
    refine .inr ⟨_, rfl, ?_⟩
    have hitems : 0 < q.buffer.fifo.items.length := hat.1
    rw [if_neg DataQueue.Stage.noConfusion, ByteRing.read_bytes]
    simp only [moved, List.flatMap_singleton, List.length_take, readRank, wakes]
    omega
  | connected | recheckConnected =>
    cases hafter
    exact .inr ⟨_, rfl, by rw [if_pos hconnected]; decide⟩
  | test | recheck =>
    cases hafter
    refine .inr ⟨_, rfl, ?_⟩
    by_cases hitems : q.availableReadSize = 0 <;> simp only [hitems, if_true, if_false] <;> decide
  | wait | relock | enter | notifyWriters =>
    cases hafter
    exact .inr ⟨_, rfl, by decide⟩
  | _ => cases hafter

section

variable {ok : Link N → Label → Prop} {outside : Int → Byte} {ms : List Message} {tr es : Trace} {link link' : Link N}
  {l : Label} {hN : 1 ≤ N}

/-! ### What the sender has done -/

/-- A write in progress has bytes to write; a message goes through only a queue of some size; and every message is
sent or unsent, but for the one in progress. -/
structure Sends (ms : List Message) (tr : Trace) (link : Link N) : Prop where
  rest : ∀ c stage, link.queue.pc .sender = .busy c stage → link.rest ≠ []
  size : link.sending ≠ none → 2 ≤ N
  results : ∃ k, results tr = List.replicate k 1 ∧
    k + (if link.sending.isNone then 0 else 1) + link.unsent.length = ms.length

/-- Steps that leave the sender in its call and its message as they are. -/
private theorem Sends.other (h : Sends ms tr link) (hsending : link'.sending = link.sending)
    (hunsent : link'.unsent = link.unsent) (hsame : DataQueue.SameCall .sender link.queue link'.queue)
    (hes : Link.results es = []) : Sends ms (tr ++ es) link' := by
  have hrest : link'.rest = link.rest := by rw [Link.rest, hsending, Link.rest]
  refine ⟨fun c stage hbusy => ?_, by rw [hsending]; exact h.size, ?_⟩
  · obtain ⟨stage', hstage'⟩ := hsame.busy hbusy
    rw [hrest]
    exact h.rest c stage' hstage'
  · rw [results_append, hes, List.append_nil, hsending, hunsent]
    exact h.results

private theorem Sends.step (hinv : Inv ms tr link) (h : Sends ms tr link) (hmove : link.Move outside link' es) :
    Sends ms (tr ++ es) link' := by
  obtain ⟨k, hk, hcount⟩ := h.results
  cases hmove with
  | @begin m later hidle hsending hunsent =>
    refine ⟨fun c stage hbusy => ?_, fun _ => ?_, k, by simpa using hk, ?_⟩
    · rw [hidle] at hbusy
      cases hbusy
    · have hlt := hinv.sender.unsent m (by rw [hunsent]; exact List.mem_cons_self ..)
      have hle := m.four_le_messageSize
      omega
    · simp only [hsending, hunsent, List.length_cons, Option.isNone_none, Option.isNone_some, if_true,
        Bool.false_eq_true, if_false] at hcount ⊢
      omega
  | @write buffer st hidle hsending hpos =>
    obtain ⟨d, t, rfl, hdt, -⟩ := hinv.sender.state buffer st hsending
    refine ⟨fun _ _ _ => ?_, h.size, k, by simpa [Link.results] using hk, hcount⟩
    rw [Link.rest, hsending]
    simp only at hpos ⊢
    exact List.length_pos_iff.1 (by rw [List.length_drop]; omega)
  | @sent buffer st hidle hsending hle =>
    refine ⟨fun c stage hbusy => ?_, fun hne => absurd rfl hne, k + 1, ?_, ?_⟩
    · rw [hidle] at hbusy
      cases hbusy
    · rw [results_append, hk, List.replicate_succ']
      rfl
    · simpa [hsending] using hcount
  | @read n k hidle hreceiving => exact h.other rfl rfl (.of_eq (link.queue.goto_of_ne (by decide) _)) rfl
  | received hidle hreceiving => exact h.other rfl rfl (.of_eq rfl) rfl
  | silent hsame => exact h.other rfl rfl (hsame .sender) rfl
  | took hpc hc hsame => exact h.other rfl rfl (hsame .sender) rfl
  | put hpc hsame => exact h.other rfl rfl (hsame .sender) rfl
  | @ret t c r s hpc hidle hother =>
    cases t with
    | receiver =>
      refine h.other ?_ ?_ (by rw [resume_queue]; exact hother .sender (by decide)) rfl
      · simp only [resume]
        split <;> rfl
      · simp only [resume]
        split <;> rfl
    | sender =>
      refine ⟨fun c' stage hbusy => ?_, ?_, k, by simpa [Link.results] using hk, ?_⟩
      · rw [resume_queue, hidle] at hbusy
        cases hbusy
      · simpa [resume] using h.size
      · simpa [resume] using hcount

theorem sends_of_run (hN' : N ≤ 2 ^ 31) (hlt : ∀ m ∈ ms, m.messageSize < N)
    (hrun : (machine N outside).RunWhere ok (start hN ms) tr link) : Sends ms tr link := by
  induction hrun with
  | start =>
    refine ⟨fun c stage hbusy => ?_, fun hne => absurd rfl hne, 0, rfl, ?_⟩
    · cases hbusy
    · simp [start]
  | step hrun _ hnext ih => exact ih.step (inv_of_run hN hN' hlt hrun) (move_of_next hnext)

/-- The read that `readMessage` asks for is of some bytes. -/
private theorem ReceiverOk.asks (h : ReceiverOk ms tr link) {n : Nat} {k : ReadResult → Reader (Int × Message)}
    (hreceiving : link.receiving = .ask n k) : 0 < n := by
  obtain ⟨taken, pending, todo, -, -, -, hawaits, hfresh⟩ := h.stream
  cases todo with
  | nil =>
    have hgives := givesUp_readMessage .empty
    rw [← hfresh rfl, hreceiving] at hgives
    exact hgives.1
  | cons m later =>
    obtain ⟨rest, htakes, -⟩ := hawaits
    rw [hreceiving] at htakes
    exact htakes.ask_pos

/-! ### The steps that are due -/

private theorem due_of_awake {p : Party} (h : link.queue.Awake p) : link.due p = link.rank p :=
  if_pos h

private theorem due_of_asleep {p : Party} (h : ¬ link.queue.Awake p) : link.due p = 0 :=
  if_neg h

private theorem due_le_rank (link : Link N) (p : Party) : link.due p ≤ link.rank p := by
  rw [due]
  split <;> omega

private theorem due_congr {p : Party} (hasleep : link'.queue.asleep = link.queue.asleep)
    (hrank : link'.rank p = link.rank p) : link'.due p = link.due p := by
  have hawake : link'.queue.Awake p ↔ link.queue.Awake p := by simp only [State.Awake, hasleep]
  rw [due, due, hrank]
  exact if_congr hawake rfl rfl

private theorem awake_of_idle (hrun : (machine N outside).RunWhere ok (start hN ms) tr link) {p : Party}
    (hidle : link.queue.pc p = .idle) : link.queue.Awake p := by
  rintro ⟨q, cond⟩ hmem rfl
  have hat := (DataQueue.disciplined DataQueue.dataCalls).asleep_at (run_onQueue hrun) hmem
  rw [hidle] at hat
  cases hat

/-- A thread that sleeps has at most seven steps once it is woken. -/
private theorem rank_of_asleep (hrun : (machine N outside).RunWhere ok (start hN ms) tr link) {p : Party}
    (hasleep : ¬ link.queue.Awake p) : link.rank p ≤ 7 := by
  obtain ⟨⟨q, cond⟩, hmem, rfl⟩ : ∃ x ∈ link.queue.asleep, x.1 = p := by simpa [State.Awake] using hasleep
  have hat := (DataQueue.disciplined DataQueue.dataCalls).asleep_at (run_onQueue hrun) hmem
  cases q with
  | sender | receiver =>
    simp only [rank]
    generalize link.queue.pc _ = point at hat
    cases point with
    | idle => cases hat
    | busy c stage => cases c <;> cases stage <;> cases hat <;> exact Nat.le_of_ble_eq_true rfl

/-- A step of one thread gives the other one only the steps of its waking. -/
private theorem due_other (hrun : (machine N outside).RunWhere ok (start hN ms) tr link) {p q : Party} (hq : q ≠ p)
    {s : DataQueue.State Party N} {es' : DataQueue.Trace Party} (hnext : link.stepQueue (.step p) = some (s, es'))
    (hqueue : link'.queue = s) (hrank : link'.rank q = link.rank q) {w : Nat}
    (hw : ∀ cond k, DataQueue.code (link.queue.pc p) link.queue.data = .notifyAll cond k → 7 ≤ w) :
    link'.due q ≤ link.due q + w := by
  by_cases hawake : link'.queue.Awake q
  · rw [due_of_awake hawake, hrank]
    rw [hqueue] at hawake
    rcases (Program.awake_of_step hnext hq).2 hawake with hbefore | ⟨cond, k, hcode⟩
    · rw [due_of_awake hbefore]
      exact Nat.le_add_right ..
    · have hseven := hw cond k hcode
      by_cases hbefore : link.queue.Awake q
      · rw [due_of_awake hbefore]
        exact Nat.le_add_right ..
      · have := rank_of_asleep hrun hbefore
        omega
  · rw [due_of_asleep hawake]
    exact Nat.zero_le _

/-! ### Results of calls -/

private theorem foldl_resume_unsent (es : DataQueue.Trace Party) (link : Link N) :
    (es.foldl resume link).unsent = link.unsent := by
  induction es generalizing link with
  | nil => rfl
  | cons x es ih =>
    rw [List.foldl_cons, ih]
    unfold resume
    split
    · rfl
    · split <;> rfl
    · rfl

private theorem foldl_resume_sending (es : DataQueue.Trace Party) (link : Link N) :
    (es.foldl resume link).sending.isNone = link.sending.isNone := by
  induction es generalizing link with
  | nil => rfl
  | cons x es ih =>
    rw [List.foldl_cons, ih]
    unfold resume
    split
    · exact Option.isNone_map
    · split <;> rfl
    · rfl

private theorem foldl_resume_receiving {es : DataQueue.Trace Party} (h : ∀ x ∈ es, x.1 ≠ .receiver) (link : Link N) :
    (es.foldl resume link).receiving = link.receiving := by
  induction es generalizing link with
  | nil => rfl
  | cons x es ih =>
    rw [List.foldl_cons, ih fun y hy => h y (List.mem_cons_of_mem _ hy)]
    have hx := h x (List.mem_cons_self ..)
    unfold resume
    split
    · rfl
    · exact absurd rfl hx
    · rfl

/-! ### The potential goes down -/

/-- What a write shows of the buffer. -/
private theorem moved_of_write {buffer : List Byte} {stage : DataQueue.Stage} {q q' : DataQueue N}
    {es : List DataQueue.Event} (h : DataQueue.Effect (.busy (.write buffer) stage) q q' es) :
    DataQueue.accepted (es.map fun e => (Party.sender, Obs.event e)) = es.flatMap moved ∧
      DataQueue.delivered (es.map fun e => (Party.sender, Obs.event e)) = [] := by
  cases h with
  | copyOut hp hc =>
    cases hp
    cases hc
  | copyIn _ | flag _ | ret _ | silent => exact ⟨by simp [DataQueue.accepted, DataQueue.putBytes, moved], rfl⟩

/-- What a read shows of the buffer. -/
private theorem moved_of_read {n : Nat} {stage : DataQueue.Stage} {q q' : DataQueue N}
    {es : List DataQueue.Event} (h : DataQueue.Effect (.busy (.read n) stage) q q' es) :
    DataQueue.accepted (es.map fun e => (Party.receiver, Obs.event e)) = [] ∧
      DataQueue.delivered (es.map fun e => (Party.receiver, Obs.event e)) = es.flatMap moved := by
  cases h with
  | copyIn hp => cases hp
  | copyOut _ _ | flag _ | ret _ | silent => exact ⟨rfl, by simp [DataQueue.delivered, DataQueue.tookBytes, moved]⟩

/-- What was delivered was accepted, and what was accepted was sent. -/
private theorem moved_le (hN' : N ≤ 2 ^ 31) (hlt : ∀ m ∈ ms, m.messageSize < N)
    (hrun : (machine N outside).RunWhere ok (start hN ms) tr link) :
    (DataQueue.accepted (onQueue tr)).length ≤ (encodings ms).length ∧
      (DataQueue.delivered (onQueue tr)).length ≤ (encodings ms).length := by
  obtain ⟨later, -, hstream⟩ := (inv_of_run hN hN' hlt hrun).sender.stream
  have haccepted : DataQueue.accepted (onQueue tr) <+: encodings ms := ⟨later, hstream⟩
  have hdelivered := DataQueue.delivered_isPrefix (ByteRing.fifo_new hN) (run_onQueue hrun)
  exact ⟨haccepted.length_le, (hdelivered.trans haccepted).length_le⟩

/-- The rank of a stage of the call that a thread makes. -/
def callRank : Party → DataQueue.Stage → Nat
  | .sender => writeRank
  | .receiver => readRank

private theorem rank_of_busy {p : Party} {c : DataQueue.Call} {stage : DataQueue.Stage}
    (h : link.queue.pc p = .busy c stage) : link.rank p = callRank p stage := by
  cases p <;> rw [rank, h] <;> rfl

/-- A step of a thread in its call: the steps due to it, and those it gives to the other thread by waking it. -/
private theorem due_of_act (hrun : (machine N outside).Run (start hN ms) tr link) {p q : Party} (hq : q ≠ p)
    {s : DataQueue.State Party N} {es' : DataQueue.Trace Party} (hnext : link.stepQueue (.step p) = some (s, es'))
    {c : DataQueue.Call} {stage : DataQueue.Stage} (hbusy : link.queue.pc p = .busy c stage)
    (link' : Link N) (hqueue : link'.queue = s) (hrank : link'.rank q = link.rank q) (paid : Nat)
    (hwakes : ∀ cond k, DataQueue.code (.busy c stage) link.queue.data = .notifyAll cond k → 7 ≤ wakes stage)
    (hstep : (∃ r, stage = .leave r ∧ s.pc p = .idle ∧ link'.rank p + 1 ≤ link.rank p) ∨
      ∃ stage', s.pc p = .busy c stage' ∧
        (if stage = .wait then 0 else callRank p stage') + wakes stage + 1 ≤ callRank p stage + paid)
    (hwait : stage = .wait → ∃ cond k, DataQueue.code (.busy c stage) link.queue.data = .wait cond () k) :
    link'.due p + link'.due q + 1 ≤ link.due p + link.due q + paid := by
  obtain ⟨hawake, -⟩ := Program.act_of_step hnext
  have hother := due_other hrun hq hnext hqueue hrank (w := wakes stage) (by rwa [hbusy])
  rw [due_of_awake hawake]
  rcases hstep with ⟨r, rfl, hidle, hle⟩ | ⟨stage', hpc, hle⟩
  · have := due_le_rank link' p
    simp only [wakes] at hother
    omega
  · rw [rank_of_busy hbusy]
    by_cases hstage : stage = .wait
    · obtain ⟨cond, k, hcode⟩ := hwait hstage
      have hasleep : ¬ link'.queue.Awake p := by
        rw [hqueue]
        exact Program.asleep_of_wait hnext (by rw [hbusy]; exact hcode)
      rw [if_pos hstage] at hle
      rw [due_of_asleep hasleep]
      omega
    · have hrank' : link'.rank p = callRank p stage' := rank_of_busy (by rw [hqueue]; exact hpc)
      have := due_le_rank link' p
      rw [if_neg hstage] at hle
      omega

/-- A step of the sender in its write. -/
private theorem potential_write (hN' : N ≤ 2 ^ 31) (hlt : ∀ m ∈ ms, m.messageSize < N)
    (hrun : (machine N outside).Run (start hN ms) tr link)
    (h : next outside link (.queue (.step .sender)) = some (link', es))
    (hle : (DataQueue.accepted (onQueue (tr ++ es))).length ≤ (encodings ms).length) :
    potential ms (tr ++ es) link' + 1 ≤ potential ms tr link := by
  obtain ⟨-, s, es', hnext, rfl, rfl⟩ := queue_eq h
  obtain ⟨hawake, k, es', hafter, hpc, rfl, -⟩ := Program.act_of_step hnext
  cases hbusy : link.queue.pc .sender with
  | idle =>
    rw [hbusy] at hafter
    cases hafter
  | busy c stage =>
    have hsender := (inv_of_run hN hN' hlt hrun).sender
    obtain ⟨hsome, rfl⟩ := hsender.call _ _ hbusy
    rw [hbusy] at hafter
    have hlength : link.rest.length < N := by
      obtain ⟨⟨buffer, st⟩, hsending⟩ := Option.ne_none_iff_exists'.1 hsome
      obtain ⟨d, t, -, -, hlt⟩ := hsender.state buffer st hsending
      rw [Link.rest, hsending, List.length_drop]
      omega
    obtain ⟨haccepted, hdelivered⟩ := moved_of_write (DataQueue.effect_of_after hafter)
    have hstep := writeRank_of_after ((sends_of_run hN' hlt hrun).rest _ _ hbusy) hlength
      (hbusy ▸ DataQueue.assertion_of_run (run_onQueue hrun) .sender)
      (DataQueue.connected_of_run rfl (run_onQueue hrun)) hafter
    have hdue := due_of_act hrun (show Party.receiver ≠ .sender by decide) hnext hbusy
      ((es'.map fun e => (Party.sender, Obs.event e)).foldl resume { link with queue := s })
      (by rw [foldl_resume_queue]) ?_ (18 * (es'.flatMap moved).length) ?_ ?_ ?_
    · rw [onQueue_append, onQueue_map, DataQueue.accepted_append, haccepted, List.length_append] at hle
      simp only [potential, foldl_resume_unsent, onQueue_append, onQueue_map, DataQueue.accepted_append,
        DataQueue.delivered_append, haccepted, hdelivered, List.append_nil, List.length_append]
      omega
    · simp only [rank, foldl_resume_queue, foldl_resume_receiving (show ∀ x ∈ es'.map (fun e =>
        (Party.sender, Obs.event e)), x.1 ≠ Party.receiver by simp), hpc,
        Function.update_of_ne (show Party.receiver ≠ .sender by decide)]
    · intro cond k hcode
      cases stage <;> cases hcode
      exact Nat.le_refl _
    · rw [hpc, Function.update_self]
      refine hstep.imp ?_ id
      rintro ⟨r, rfl, rfl⟩
      refine ⟨r, rfl, rfl, ?_⟩
      rw [rank_of_busy hbusy, rank, foldl_resume_queue, hpc, Function.update_self]
      simp only [foldl_resume_sending]
      split <;> exact Nat.le_of_ble_eq_true rfl
    · rintro rfl
      exact ⟨_, _, rfl⟩

/-- A step of the receiver in its read. -/
private theorem potential_read (hN' : N ≤ 2 ^ 31) (hlt : ∀ m ∈ ms, m.messageSize < N)
    (hrun : (machine N outside).Run (start hN ms) tr link)
    (h : next outside link (.queue (.step .receiver)) = some (link', es))
    (hle : (DataQueue.delivered (onQueue (tr ++ es))).length ≤ (encodings ms).length) :
    potential ms (tr ++ es) link' + 1 ≤ potential ms tr link := by
  obtain ⟨-, s, es', hnext, rfl, rfl⟩ := queue_eq h
  obtain ⟨hawake, k, es', hafter, hpc, rfl, -⟩ := Program.act_of_step hnext
  cases hbusy : link.queue.pc .receiver with
  | idle =>
    rw [hbusy] at hafter
    cases hafter
  | busy c stage =>
    have hreceiver := (inv_of_run hN hN' hlt hrun).receiver
    obtain ⟨n, _, hreceiving, rfl⟩ := hreceiver.call _ _ hbusy
    rw [hbusy] at hafter
    obtain ⟨haccepted, hdelivered⟩ := moved_of_read (DataQueue.effect_of_after hafter)
    have hstep := readRank_of_after (hreceiver.asks hreceiving)
      (hbusy ▸ DataQueue.assertion_of_run (run_onQueue hrun) .receiver)
      (DataQueue.connected_of_run rfl (run_onQueue hrun)) hafter
    have hdue := due_of_act hrun (show Party.sender ≠ .receiver by decide) hnext hbusy
      ((es'.map fun e => (Party.receiver, Obs.event e)).foldl resume { link with queue := s })
      (by rw [foldl_resume_queue]) ?_ (14 * (es'.flatMap moved).length) ?_ ?_ ?_
    · rw [onQueue_append, onQueue_map, DataQueue.delivered_append, hdelivered, List.length_append] at hle
      simp only [potential, foldl_resume_unsent, onQueue_append, onQueue_map, DataQueue.accepted_append,
        DataQueue.delivered_append, haccepted, hdelivered, List.append_nil, List.length_append]
      omega
    · simp only [rank, foldl_resume_queue, foldl_resume_sending, hpc,
        Function.update_of_ne (show Party.sender ≠ .receiver by decide)]
    · intro cond k hcode
      cases stage <;> cases hcode
      exact Nat.le_refl _
    · rw [hpc, Function.update_self]
      refine hstep.imp ?_ id
      rintro ⟨r, rfl, rfl⟩
      refine ⟨r, rfl, rfl, ?_⟩
      rw [rank_of_busy hbusy, rank, foldl_resume_queue, hpc, Function.update_self]
      simp only
      split <;> exact Nat.le_of_ble_eq_true rfl
    · rintro rfl
      exact ⟨_, _, rfl⟩

/-- A thread calls a method. -/
private theorem due_of_call {p q : Party} (hq : q ≠ p) {c : DataQueue.Call} (h : link.call p c = some (link', es))
    (hawake : link.queue.Awake p) (hrank : callRank p .enter + 1 ≤ link.rank p) :
    link'.due p + 1 ≤ link.due p ∧ link'.due q = link.due q := by
  obtain ⟨rfl, -⟩ := call_eq h
  have hle := due_le_rank { link with queue := link.queue.goto p (.busy c .enter) } p
  have hrank' : rank { link with queue := link.queue.goto p (.busy c .enter) } p = callRank p .enter :=
    rank_of_busy (State.goto_self ..)
  refine ⟨?_, due_congr rfl ?_⟩
  · rw [due_of_awake hawake]
    omega
  · cases q <;> simp only [rank, State.goto_of_ne _ hq]

/-- A step of the sender between its writes. -/
private theorem potential_send (hrun : (machine N outside).Run (start hN ms) tr link)
    (h : next outside link .send = some (link', es)) : potential ms (tr ++ es) link' + 1 ≤ potential ms tr link := by
  simp only [next] at h
  split at h
  · rename_i hidle
    have hawake := awake_of_idle hrun hidle
    have hrank : link.rank .sender = if link.sending.isNone then 0 else 10 := by rw [rank, hidle]
    split at h
    · rename_i hsending
      split at h <;> cases h
      rename_i m later hunsent
      have hreceiver : due { link with sending := some (m.writeMessage, .start m), unsent := later } .receiver =
          link.due .receiver := due_congr rfl rfl
      have hsender := due_le_rank { link with sending := some (m.writeMessage, .start m), unsent := later } .sender
      have hten : rank { link with sending := some (m.writeMessage, .start m), unsent := later } .sender = 10 := by
        simp only [rank, hidle]
        rfl
      simp only [potential, List.append_nil, hreceiver, hunsent, List.length_cons]
      omega
    · rename_i buffer st hsending
      rw [hsending] at hrank
      split at h
      · have hsame : link'.unsent = link.unsent := by
          obtain ⟨rfl, -⟩ := call_eq h
          rfl
        obtain ⟨-, rfl⟩ := call_eq h
        obtain ⟨hsender, hreceiver⟩ := due_of_call (show Party.receiver ≠ .sender by decide) h hawake
          (by rw [hrank]; exact Nat.le_refl _)
        simp only [potential, hsame, onQueue_append, DataQueue.accepted_append, DataQueue.delivered_append, hreceiver]
        simp [onQueue, DataQueue.accepted, DataQueue.delivered, DataQueue.putBytes, DataQueue.tookBytes]
        omega
      · cases h
        have hreceiver : due { link with sending := none } .receiver = link.due .receiver := due_congr rfl rfl
        have hsender := due_le_rank { link with sending := none } .sender
        have hzero : rank { link with sending := none } .sender = 0 := by
          simp only [rank, hidle]
          rfl
        have hten : link.due .sender = 10 := by
          rw [due_of_awake hawake, hrank]
          rfl
        simp only [potential, hreceiver, onQueue_append]
        simp [onQueue]
        omega
  · cases h

/-- A step of the receiver between its reads. -/
private theorem potential_receive (hrun : (machine N outside).Run (start hN ms) tr link)
    (h : next outside link .receive = some (link', es)) :
    potential ms (tr ++ es) link' + 1 ≤ potential ms tr link := by
  simp only [next] at h
  split at h
  · rename_i hidle
    have hawake := awake_of_idle hrun hidle
    split at h
    · rename_i n k hreceiving
      have hrank : link.rank .receiver = 14 := by simp only [rank, hidle, hreceiving]
      have hsame : link'.unsent = link.unsent := by
        obtain ⟨rfl, -⟩ := call_eq h
        rfl
      obtain ⟨-, rfl⟩ := call_eq h
      obtain ⟨hreceiver, hsender⟩ := due_of_call (show Party.sender ≠ .receiver by decide) h hawake
        (by rw [hrank]; exact Nat.le_refl _)
      simp only [potential, hsame, onQueue_append, DataQueue.accepted_append, DataQueue.delivered_append, hsender]
      simp [onQueue, DataQueue.accepted, DataQueue.delivered, DataQueue.putBytes, DataQueue.tookBytes]
      omega
    · rename_i outcome hreceiving
      cases h
      have hsender : due { link with receiving := readMessage .empty } .sender = link.due .sender := due_congr rfl rfl
      have hreceiver := due_le_rank { link with receiving := readMessage .empty } .receiver
      have hfourteen : rank { link with receiving := readMessage .empty } .receiver = 14 := by
        obtain ⟨k, hk⟩ := asks_readMessage .empty
        simp only [rank, hidle, hk]
      have hfifteen : link.due .receiver = 15 := by
        rw [due_of_awake hawake]
        simp only [rank, hidle, hreceiving]
      simp only [potential, hsender, onQueue_append]
      simp [onQueue]
      omega
  · cases h

/-- A spurious wake-up gives the thread the steps of its waking. -/
private theorem potential_wake (hrun : (machine N outside).Run (start hN ms) tr link) (p : Party) :
    potential ms tr { link with queue := link.queue.rouse p } ≤ potential ms tr link + 7 := by
  have hother : ∀ q, q ≠ p → due { link with queue := link.queue.rouse p } q = link.due q := by
    intro q hq
    have hawake : (link.queue.rouse p).Awake q ↔ link.queue.Awake q := by
      refine ⟨fun h x hx heq => ?_, fun h x hx => h x (List.mem_filter.1 hx).1⟩
      exact h x (List.mem_filter.2 ⟨hx, decide_eq_true (by rw [heq]; exact hq)⟩) heq
    exact if_congr hawake rfl rfl
  have hself : due { link with queue := link.queue.rouse p } p ≤ link.due p + 7 := by
    have hle := due_le_rank { link with queue := link.queue.rouse p } p
    have hrank : rank { link with queue := link.queue.rouse p } p = link.rank p := rfl
    by_cases hawake : link.queue.Awake p
    · rw [due_of_awake hawake]
      omega
    · have := rank_of_asleep hrun hawake
      omega
  cases p with
  | sender =>
    simp only [potential, hother .receiver (by decide)]
    omega
  | receiver =>
    simp only [potential, hother .sender (by decide)]
    omega

/-- Every step but a spurious wake-up lowers the potential. -/
theorem potential_of_next (hN' : N ≤ 2 ^ 31) (hlt : ∀ m ∈ ms, m.messageSize < N)
    (hrun : (machine N outside).Run (start hN ms) tr link) (h : (machine N outside).next link l = some (link', es)) :
    potential ms (tr ++ es) link' + 1 ≤ potential ms tr link + if isWake l then 8 else 0 := by
  have hle := moved_le hN' hlt (hrun.step trivial h)
  cases l with
  | send => exact potential_send hrun h
  | receive => exact potential_receive hrun h
  | queue l =>
    obtain ⟨hinvoke, s, es', hnext, hlink, hes⟩ := queue_eq h
    cases l with
    | invoke p point => exact absurd rfl (hinvoke p point)
    | step p =>
      cases p with
      | sender => exact potential_write hN' hlt hrun h hle.1
      | receiver => exact potential_read hN' hlt hrun h hle.2
    | signal p q =>
      -- nobody is notified alone
      simp only [stepQueue, Program.next, DataQueue.program] at hnext
      generalize link.queue.pc p = point at hnext
      cases point with
      | idle => cases hnext
      | busy c stage => cases c <;> cases stage <;> cases hnext
    | wake p =>
      cases hnext
      subst hlink hes
      rw [List.map_nil, List.append_nil]
      have := potential_wake hrun p
      exact Nat.succ_le_succ this
    | expire p =>
      -- nobody waits with a timeout
      obtain ⟨k, hk, -⟩ := Option.map_eq_some_iff.1 hnext
      have hinv := inv_of_run hN hN' hlt hrun
      cases hbusy : link.queue.pc p with
      | idle =>
        rw [hbusy] at hk
        cases hk
      | busy c stage =>
        rw [hbusy] at hk
        cases p with
        | sender =>
          obtain ⟨-, rfl⟩ := hinv.sender.call c stage hbusy
          cases hk
        | receiver =>
          obtain ⟨n, -, -, rfl⟩ := hinv.receiver.call c stage hbusy
          cases hk

/-! ### Nothing is left undone -/

theorem oneReader_of_run (hrun : (machine N outside).RunWhere ok (start hN ms) tr link) :
    DataQueue.OneReader .receiver (onQueue tr) := by
  induction hrun with
  | start => exact fun x hx => absurd hx List.not_mem_nil
  | @step tr link l link' es hrun _ hnext ih =>
    intro x hx hreads
    rw [onQueue_append] at hx
    refine (List.mem_append.1 hx).elim (fun hx => ih x hx hreads) fun hx => ?_
    cases move_of_next hnext with
    | read _ _ =>
      obtain rfl := List.mem_singleton.1 hx
      rfl
    | write _ _ _ | took _ _ _ | put _ _ | ret _ _ _ =>
      obtain rfl := List.mem_singleton.1 hx
      cases hreads
    | begin _ _ _ | sent _ _ _ | received _ _ | silent _ => cases hx

/-- No thread can go on without a spurious wake-up. -/
def Ended (outside : Int → Byte) (link : Link N) : Prop := ∀ l, isWake l = false → next outside link l = none

private theorem call_of_idle {p : Party} {c : DataQueue.Call} (hidle : link.queue.pc p = .idle)
    (hc : DataQueue.dataCalls c = true) : link.call p c ≠ none := by
  intro h
  have hnone := Option.map_eq_none_iff.1 h
  simp only [stepQueue, Program.next, ite_eq_right_iff, reduceCtorEq] at hnone
  exact hnone ⟨by rw [hidle]; rfl, hc⟩

/-- When no step of the queue is left, no thread can act in it. -/
theorem stuck_of_none (h : ∀ l, isWake (.queue l) = false → next outside link (.queue l) = none) :
    Stuck (DataQueue.program N DataQueue.dataCalls) link.queue := by
  have hnone : ∀ l, isWake (.queue l) = false → (∀ t p, l ≠ .invoke t p) → link.stepQueue l = none := by
    intro l hwake hinvoke
    have hl := h l hwake
    cases l with
    | invoke t p => exact absurd rfl (hinvoke t p)
    | wake t => cases hwake
    | step t | signal t u | expire t => exact Option.map_eq_none_iff.1 hl
  exact fun t => ⟨hnone (.step t) rfl (by simp), fun u => hnone (.signal t u) rfl (by simp)⟩

/-- A receiver that cannot go on is in a read. -/
theorem busy_of_none (h : next outside link .receive = none) :
    ∃ c stage, link.queue.pc .receiver = .busy c stage := by
  cases hpc : link.queue.pc .receiver with
  | busy c stage => exact ⟨c, stage, rfl⟩
  | idle =>
    simp only [next, if_pos hpc] at h
    split at h
    · exact absurd h (call_of_idle hpc rfl)
    · cases h

/-- A sender outside the calls that cannot go on has nothing left to send. -/
theorem sent_of_none (h : next outside link .send = none) (hidle : link.queue.pc .sender = .idle) :
    link.sending = none ∧ link.unsent = [] := by
  simp only [next, if_pos hidle] at h
  split at h
  · rename_i hsending
    split at h
    · rename_i hunsent
      exact ⟨hsending, hunsent⟩
    · cases h
  · split at h
    · exact absurd h (call_of_idle hidle rfl)
    · cases h

/-- When nobody can go on, every message is received. -/
theorem delivered_of_ended (hN' : N ≤ 2 ^ 31) (hlt : ∀ m ∈ ms, m.messageSize < N)
    (hrun : (machine N outside).Run (start hN ms) tr link) (hended : link.Ended outside) :
    received tr = ms ∧ results tr = List.replicate ms.length 1 := by
  have hinv := inv_of_run hN hN' hlt hrun
  have hqueue := run_onQueue hrun
  have hsends := sends_of_run hN' hlt hrun
  have hstuck := stuck_of_none fun l => hended (.queue l)
  obtain ⟨c, stage, hbusy⟩ := busy_of_none (hended .receive rfl)
  obtain ⟨n, k, hreceiving, rfl⟩ := hinv.receiver.call c stage hbusy
  have hempty := ((DataQueue.readers_not_lost hqueue).2 hstuck _ _ _ hbusy).2 rfl
  -- with one reader a sender in a write would mean a queue that cannot hold a byte
  have hidle : link.queue.pc .sender = .idle := by
    cases hpc : link.queue.pc .sender with
    | idle => rfl
    | busy c' stage' =>
      have htwo := hsends.size (hinv.sender.call c' stage' hpc).1
      have hall := (DataQueue.no_deadlock_of_one_reader htwo hqueue (oneReader_of_run hrun) hstuck hbusy rfl).2
      exact hpc.symm.trans (hall .sender (by decide))
  obtain ⟨hsending, hunsent⟩ := sent_of_none (hended .send rfl) hidle
  refine ⟨?_, ?_⟩
  · -- all was accepted, and with an empty buffer all was delivered
    obtain ⟨later, hlater, haccepted⟩ := hinv.sender.stream
    rw [Link.rest, hsending, hunsent, inCall_idle hidle, List.nil_append, List.nil_append] at hlater
    rw [← hlater, show encodings [] = [] from rfl, List.append_nil] at haccepted
    rw [DataQueue.availableReadSize, ByteRing.availableReadSize_eq] at hempty
    have hconserved := DataQueue.conserved_of_run (ByteRing.fifo_new hN) hqueue
    have hdrained := hconserved.drained (List.length_eq_zero_iff.1 hempty)
    obtain ⟨taken, pending, todo, hdelivered, hsplit, htodo, hawaits, -⟩ := hinv.receiver.stream
    -- the read in progress has taken nothing yet
    have hown := DataQueue.own_of_stuck hqueue hstuck hbusy
    rw [inCall_before hown, List.append_nil, hdrained, haccepted] at hdelivered
    rw [← hdelivered] at hsplit
    have hpending : pending = [] := by simpa using hsplit
    cases todo with
    | nil => simpa using htodo
    | cons m rest =>
      obtain ⟨bytes, htakes, happend⟩ := hawaits
      rw [hreceiving] at htakes
      rw [hpending] at happend
      obtain ⟨rfl, -⟩ := List.append_eq_nil_iff.1 happend.symm
      have hle := htakes.ask_le
      have hpos := htakes.ask_pos
      simp only [List.length_nil] at hle
      omega
  · obtain ⟨k, hk, hcount⟩ := hsends.results
    rw [hsending, hunsent] at hcount
    simp only [Option.isNone_none, if_true, Nat.add_zero, List.length_nil] at hcount
    rw [hk, hcount]

end

/-- Messages that are shorter than the queue arrive under every schedule.  A schedule is no longer than the messages
allow, but for its spurious wake-ups; when nobody can go on any more, all messages were received in order and every
call of `sendMessage` has returned 1; and every schedule can be continued to such an end. -/
theorem delivers_all (hN : 1 ≤ N) (hN' : N ≤ 2 ^ 31) (outside : Int → Byte) (ms : List Message)
    (hlt : ∀ m ∈ ms, m.messageSize < N) (ls : List Label) (tr : Trace) (link : Link N)
    (hexec : (machine N outside).exec (start hN ms) ls = some (link, tr)) :
    ls.length ≤ 32 * (encodings ms).length + 11 * ms.length + 14 + 8 * ls.countP isWake ∧
      (link.Ended outside → received tr = ms ∧ results tr = List.replicate ms.length 1) ∧
      ∃ ls' link' tr', (∀ l ∈ ls', isWake l = false) ∧ (machine N outside).exec link ls' = some (link', tr') ∧
        link'.Ended outside ∧ received (tr ++ tr') = ms ∧ results (tr ++ tr') = List.replicate ms.length 1 := by
  have hrun := Machine.RunWhere.of_exec hexec
  refine ⟨?_, delivered_of_ended hN' hlt hrun, ?_⟩
  · have hlength : ls.length + potential ms tr link ≤ potential ms [] (start hN ms) + 8 * ls.countP isWake :=
      Machine.length_le_of_potential (potential ms)
        (fun _ _ _ _ _ hrun hnext => potential_of_next hN' hlt hrun hnext) hexec
    have hstart : potential ms [] (start hN ms) =
        32 * (encodings ms).length + 11 * ms.length + 14 := by
      obtain ⟨k, hk⟩ := asks_readMessage .empty
      simp [potential, due, rank, start, State.start, State.Awake, hk, onQueue, DataQueue.accepted,
        DataQueue.delivered]
      omega
    omega
  · have hlower : ∀ tr link l link' es, (machine N outside).Run (start hN ms) tr link →
        (machine N outside).next link l = some (link', es) → isWake l = false →
          potential ms (tr ++ es) link' < potential ms tr link := by
      intro tr link l link' es hrun hnext hwake
      have hle := potential_of_next hN' hlt hrun hnext
      rwa [hwake] at hle
    obtain ⟨ls', link', tr', hwakes, hexec', hended⟩ := Machine.exists_end (potential ms) hlower hrun
    have hrun' := hrun.trans (Machine.RunWhere.of_exec hexec')
    exact ⟨ls', link', tr', hwakes, hexec', hended, delivered_of_ended hN' hlt hrun' hended⟩

/-- The sender alone sends a message of one frame into a queue of 16 bytes; the rest of the way is certain. -/
theorem delivers_all_sixteen : ∃ ls tr link,
    (machine 16 fun _ => 0).exec (start (by decide) [⟨[⟨[7]⟩]⟩]) ls = some (link, tr) ∧ results tr = [1] ∧
      ∃ ls' link' tr', (∀ l ∈ ls', isWake l = false) ∧ (machine 16 fun _ => 0).exec link ls' = some (link', tr') ∧
        link'.Ended (fun _ => 0) ∧ received (tr ++ tr') = [⟨[⟨[7]⟩]⟩] := by
  have h : (((machine 16 fun _ => 0).exec (start (by decide) [⟨[⟨[7]⟩]⟩])
      ([.send, .send] ++ List.replicate 6 (.queue (.step .sender)) ++ [.send])).any fun r =>
        decide (results r.2 = [1])) = true := by decide +kernel
  obtain ⟨⟨link, tr⟩, hexec, hs⟩ := (Option.any_eq_true _ _).1 h
  obtain ⟨-, -, ls', link', tr', hwakes, hexec', hended, hreceived, -⟩ :=
    delivers_all (by decide) (by decide) _ _ (by decide) _ _ _ hexec
  exact ⟨_, tr, link, hexec, of_decide_eq_true hs, ls', link', tr', hwakes, hexec', hended, hreceived⟩

end Link

end Cppio
