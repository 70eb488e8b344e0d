import Cppio.InprocTransport

/-!
# The longest message an in-process connection carries

Messages go through under every schedule exactly when each is shorter than the queue (`transports_iff`).  For the
longer ones a schedule is given: the threads take turns and every message is received before the next is sent, so the
calls run undisturbed from a calm queue to a calm queue; the first message that is too long is refused.
-/

namespace Cppio

namespace DataQueue

open Monitor

variable {τ : Type} [DecidableEq τ] {N : Nat} {calls : Call → Bool}

/-! ### Undisturbed calls -/

/-- Nobody is in a call, and the queue is connected. -/
structure Calm (s : State τ N) : Prop where
  owner : s.owner () = none
  asleep : s.asleep = []
  idle : ∀ t, s.pc t = .idle
  connected : s.data.connected = true

variable {s : State τ N} {t : τ}

private theorem calm_of_fields {s' : State τ N} (h : Calm s) (howner : s'.owner () = none) (hasleep : s'.asleep = [])
    (hpc : s'.pc = Function.update s.pc t .idle) (hconnected : s'.data.connected = s.data.connected) : Calm s' := by
  refine ⟨howner, hasleep, fun u => ?_, hconnected.trans h.connected⟩
  rw [hpc]
  by_cases hu : u = t
  · rw [hu, Function.update_self]
  · rw [Function.update_of_ne hu, h.idle]

/-- A block of the size of the queue is refused. -/
theorem exec_refused (h : Calm s) {buffer : List Byte} (hN : N ≤ buffer.length) : ∃ s',
    (program N calls).machine.exec (s.goto t (.busy (.write buffer) .enter)) (List.replicate 3 (.step t)) =
      some (s', [(t, .event (.ret (.write buffer) (.error .eTooBigBuffer)))]) := by
  simp [Machine.exec, Program.machine, List.replicate, Program.next, State.perform, State.goto, program, code,
    writeCode, goto, unlock, h.owner, h.asleep, ByteRing.size_eq, hN]

/-- A shorter one is put into an empty buffer as a whole. -/
theorem exec_write (h : Calm s) {buffer : List Byte} (hne : buffer ≠ []) (hN : buffer.length < N)
    (hempty : s.data.buffer.fifo.items = []) : ∃ s',
    (program N calls).machine.exec (s.goto t (.busy (.write buffer) .enter)) (List.replicate 6 (.step t)) =
      some (s', [(t, .event (.put buffer)), (t, .event (.ret (.write buffer) (.count buffer.length)))]) ∧
    Calm s' ∧ s'.data.buffer.fifo.items = buffer := by
  have hpos := List.length_pos_iff.2 hne
  have hsize : ¬ N ≤ buffer.length := Nat.not_le.2 hN
  have hroom : s.data.buffer.fifo.room = N - 1 := by rw [BoundedFifo.room, hempty, List.length_nil, Nat.sub_zero]
  have hfree : ¬ N - 1 = 0 := by omega
  have hmin : min buffer.length (N - 1) = buffer.length := Nat.min_eq_left (by omega)
  refine ⟨{ s with data := { s.data with buffer := s.data.buffer.write buffer }
                   owner := Function.update s.owner () none
                   pc := Function.update s.pc t .idle }, ?_, ?_, ?_⟩
  · simp [Machine.exec, Program.machine, List.replicate, Program.next, State.perform, State.goto, program, code,
      writeCode, goto, unlock, h.owner, h.asleep, ByteRing.size_eq, hsize, availableWriteSize, hroom, hfree, hmin]
  · exact calm_of_fields h (by simp) h.asleep rfl rfl
  · have htake : buffer.take (N - 1) = buffer := List.take_of_length_le (by omega)
    simp [BoundedFifo.push, hempty, hroom, htake]

/-- A read takes as many bytes as it asks for and there are. -/
theorem exec_read (h : Calm s) {n : Nat} (hne : s.data.buffer.fifo.items ≠ []) : ∃ s',
    (program N calls).machine.exec (s.goto t (.busy (.read n) .enter)) (List.replicate 5 (.step t)) =
      some (s', [(t, .event (.took (s.data.buffer.fifo.items.take n))),
        (t, .event (.ret (.read n) (.bytes (s.data.buffer.fifo.items.take n))))]) ∧
    Calm s' ∧ s'.data.buffer.fifo.items = s.data.buffer.fifo.items.drop n := by
  refine ⟨{ s with data := { s.data with buffer := s.data.buffer.read n }
                   owner := Function.update s.owner () none
                   pc := Function.update s.pc t .idle }, ?_, ?_, ?_⟩
  · simp [Machine.exec, Program.machine, List.replicate, Program.next, State.perform, State.goto, program, code,
      readCode, goto, unlock, h.owner, h.asleep, availableReadSize, hne, copyOut]
  · exact calm_of_fields h (by simp) h.asleep rfl rfl
  · rw [ByteRing.fifo_read, BoundedFifo.pop]

end DataQueue

namespace Link

open Monitor MessageProtocol

variable {N : Nat} {outside : Int → Byte}

/-! ### Messages that fit -/

private theorem resume_with_queue (link : Link N) (s s' : DataQueue.State Party N)
    (x : Party × Obs DataQueue.Point DataQueue.Event) :
    { resume { link with queue := s } x with queue := s' } = { resume link x with queue := s' } := by
  unfold resume
  split
  · rfl
  · simp only
    split <;> rfl
  · rfl

private theorem foldl_resume_with_queue (es : DataQueue.Trace Party) :
    ∀ (link : Link N) (s s' : DataQueue.State Party N),
      { es.foldl resume { link with queue := s } with queue := s' } = { es.foldl resume link with queue := s' } := by
  induction es with
  | nil => exact fun _ _ _ => rfl
  | cons x es ih =>
    intro link s s'
    rw [List.foldl_cons, List.foldl_cons, ← ih (resume _ x) s, resume_with_queue, ih]

/-- A run of steps of the queue is a run of the link. -/
private theorem run_steps {link₀ : Link N} {ls : List (Monitor.Label Party DataQueue.Point)}
    (hls : ∀ l ∈ ls, ∃ p, l = .step p) : ∀ {tr : Trace} {link : Link N} {s : DataQueue.State Party N}
    {es : DataQueue.Trace Party}, (machine N outside).Run link₀ tr link →
    (DataQueue.program N DataQueue.dataCalls).machine.exec link.queue ls = some (s, es) →
    (machine N outside).Run link₀ (tr ++ es.map .queue) { es.foldl resume link with queue := s } := by
  induction ls with
  | nil =>
    intro tr link s es hrun hexec
    cases hexec
    simpa using hrun
  | cons l ls ih =>
    intro tr link s es hrun hexec
    obtain ⟨p, rfl⟩ := hls l (List.mem_cons_self ..)
    simp only [Machine.exec] at hexec
    split at hexec
    · cases hexec
    · rename_i s₁ es₁ hstep
      obtain ⟨⟨s', es'⟩, hexec', heq⟩ := Option.map_eq_some_iff.1 hexec
      cases heq
      have hnext : (machine N outside).next link (.queue (.step p)) =
          some (es₁.foldl resume { link with queue := s₁ }, es₁.map .queue) :=
        Option.map_eq_some_iff.2 ⟨(s₁, es₁), hstep, rfl⟩
      have hqueue := foldl_resume_queue es₁ { link with queue := s₁ }
      have hrun' := ih (fun l hl => hls l (List.mem_cons_of_mem _ hl)) (hrun.step trivial hnext)
        (by rw [hqueue]; exact hexec')
      rw [List.map_append, ← List.append_assoc, List.foldl_append, ← foldl_resume_with_queue es' _ s₁]
      rw [← foldl_resume_with_queue es' _ s₁, foldl_resume_with_queue es₁] at hrun'
      exact hrun'

/-- Between two messages: no call is in progress and the queue is empty. -/
structure Ready (link : Link N) (todo : List Message) : Prop where
  calm : DataQueue.Calm link.queue
  empty : link.queue.data.buffer.fifo.items = []
  sending : link.sending = none
  unsent : link.unsent = todo
  receiving : link.receiving = readMessage .empty

variable {link₀ link : Link N} {tr : Trace} {m : Message} {later : List Message}

/-- The sender begins to write the next message. -/
private theorem run_begin (hrun : (machine N outside).Run link₀ tr link) (h : Ready link (m :: later))
    (hsize : m.messageSize < 2 ^ 31) : ∃ tr', (machine N outside).Run link₀ tr'
      { link with queue := link.queue.goto .sender (.busy (.write m.writeMessage) .enter)
                  sending := some (m.writeMessage, ⟨m.messageSize, 0⟩)
                  unsent := later } := by
  have hidle := h.calm.idle .sender
  have hstart : SendState.start m = ⟨m.messageSize, 0⟩ := by
    rw [SendState.start, toInt32_of_lt hsize]
  have hpos : ¬ m.messageSize = 0 := by
    have := m.four_le_messageSize
    omega
  have hbytes : bytesAt m.writeMessage outside 0 m.messageSize = m.writeMessage := by
    have hdrop : bytesAt m.writeMessage outside (0 : Nat) m.messageSize = m.writeMessage.drop 0 :=
      bytesAt_eq_drop (by rw [Nat.zero_add, m.length_writeMessage])
    rwa [List.drop_zero] at hdrop
  have hbegin : (machine N outside).next link .send =
      some ({ link with sending := some (m.writeMessage, ⟨m.messageSize, 0⟩), unsent := later }, []) := by
    simp [machine, next, hidle, h.sending, h.unsent, hstart]
  have hwrite : (machine N outside).next
      { link with sending := some (m.writeMessage, ⟨m.messageSize, 0⟩), unsent := later } .send =
        some ({ link with queue := link.queue.goto .sender (.busy (.write m.writeMessage) .enter)
                          sending := some (m.writeMessage, ⟨m.messageSize, 0⟩)
                          unsent := later },
          [.queue (.sender, .call (.busy (.write m.writeMessage) .enter))]) := by
    simp [machine, next, hidle, hpos, hbytes, call, stepQueue, Program.next, DataQueue.program, InprocLine.write,
      DataQueue.dataCalls]
  exact ⟨_, (hrun.step trivial hbegin).step trivial hwrite⟩

/-- A message that is too long is refused. -/
private theorem run_refused (hrun : (machine N outside).Run link₀ tr link) (h : Ready link (m :: later))
    (hsize : m.messageSize < 2 ^ 31) (hN : N ≤ m.messageSize) : ∃ tr' link', (machine N outside).Run link₀ tr' link' ∧
      Event.queue (.sender, .event (.ret (.write m.writeMessage) (.error .eTooBigBuffer))) ∈ tr' := by
  obtain ⟨tr', hrun'⟩ := run_begin hrun h hsize
  obtain ⟨s, hexec⟩ := DataQueue.exec_refused h.calm (by rwa [m.length_writeMessage])
  exact ⟨_, _, run_steps (by simp) hrun' hexec, by simp⟩

/-- A shorter one is put into the queue. -/
private theorem run_sent (hrun : (machine N outside).Run link₀ tr link) (h : Ready link (m :: later))
    (hN' : N ≤ 2 ^ 31) (hN : m.messageSize < N) : ∃ tr' link', (machine N outside).Run link₀ tr' link' ∧
      DataQueue.Calm link'.queue ∧ link'.queue.data.buffer.fifo.items = m.writeMessage ∧ link'.sending = none ∧
      link'.unsent = later ∧ link'.receiving = readMessage .empty := by
  have hsize : m.messageSize < 2 ^ 31 := by omega
  have hlen := m.length_writeMessage
  obtain ⟨tr', hrun'⟩ := run_begin hrun h hsize
  have hne : m.writeMessage ≠ [] := by
    have := m.four_le_messageSize
    exact List.length_pos_iff.1 (by omega)
  obtain ⟨s, hexec, hcalm, hitems⟩ := DataQueue.exec_write h.calm hne (by rwa [hlen]) h.empty
  have hnext : SendState.next ⟨m.messageSize, 0⟩ m.writeMessage.length = ⟨0, m.messageSize⟩ := by
    have h := next_of_le (Nat.le_refl m.messageSize) (show 0 + m.messageSize < 2 ^ 31 by omega)
    rw [hlen]
    simpa using h
  have hrun'' := run_steps (by simp) hrun' hexec
  simp only [List.foldl_cons, List.foldl_nil, resume, Option.map_some, DataQueue.Result.value, hnext] at hrun''
  have hsent : (machine N outside).next
      { link with queue := s, sending := some (m.writeMessage, ⟨0, m.messageSize⟩), unsent := later } .send =
        some ({ link with queue := s, sending := none, unsent := later }, [.sent 1]) := by
    simp [machine, next, hcalm.idle]
  exact ⟨_, _, hrun''.step trivial hsent, hcalm, hitems, rfl, rfl, h.receiving⟩

/-- The receiver takes the rest of a message out of the queue. -/
private theorem run_drain (hN' : N ≤ 2 ^ 31) (p : Reader (Int × Message)) : ∀ {link : Link N} {tr : Trace},
    (machine N outside).Run link₀ tr link → DataQueue.Calm link.queue → link.sending = none → link.unsent = later →
    link.receiving = p → Takes p link.queue.data.buffer.fifo.items (1, m) →
    ∃ tr' link', (machine N outside).Run link₀ tr' link' ∧ Ready link' later := by
  induction p with
  | done outcome =>
    intro link tr hrun hcalm hsending hunsent hreceiving htakes
    have hreceived : (machine N outside).next link .receive =
        some ({ link with receiving := readMessage .empty }, [.received outcome]) := by
      simp [machine, next, hcalm.idle, hreceiving]
    exact ⟨_, _, hrun.step trivial hreceived, hcalm, htakes.1, hsending, hunsent, rfl⟩
  | ask n k ih =>
    intro link tr hrun hcalm hsending hunsent hreceiving htakes
    have hcall : (machine N outside).next link .receive =
        some ({ link with queue := link.queue.goto .receiver (.busy (.read n) .enter) },
          [.queue (.receiver, .call (.busy (.read n) .enter))]) := by
      simp [machine, next, hcalm.idle, hreceiving, call, stepQueue, Program.next, DataQueue.program, InprocLine.read,
        DataQueue.dataCalls]
    have hpos := htakes.ask_pos
    have hle := htakes.ask_le
    have hbounded := link.queue.data.buffer.fifo.bounded
    have hne : link.queue.data.buffer.fifo.items ≠ [] := List.length_pos_iff.1 (by omega)
    obtain ⟨s, hexec, hcalm', hitems⟩ := DataQueue.exec_read (n := n) hcalm hne
    have hrun' := run_steps (by simp) (hrun.step trivial hcall) hexec
    simp only [List.foldl_cons, List.foldl_nil, resume, hreceiving] at hrun'
    have hlen : (link.queue.data.buffer.fifo.items.take n).length = n := by
      rw [List.length_take, Nat.min_eq_left hle]
    have hbytes : link.queue.data.buffer.fifo.items.take n ≠ [] := List.length_pos_iff.1 (by omega)
    refine ih _ hrun' hcalm' hsending hunsent rfl ?_
    rw [hitems]
    rw [← List.take_append_drop n link.queue.data.buffer.fifo.items] at htakes
    exact htakes.next hbytes (by omega) (fitsInt_of_lt hbytes (by omega))

/-- When a message is too long for the queue, some run refuses it. -/
private theorem exists_refused (hN' : N ≤ 2 ^ 31) : ∀ {todo : List Message} {link : Link N} {tr : Trace},
    (machine N outside).Run link₀ tr link → Ready link todo → (∀ m ∈ todo, m.messageSize < 2 ^ 31) →
    (∃ m ∈ todo, N ≤ m.messageSize) → ∃ tr' link', (machine N outside).Run link₀ tr' link' ∧
      ∃ p c, Event.queue (p, .event (.ret c (.error .eTooBigBuffer))) ∈ tr' := by
  intro todo
  induction todo with
  | nil =>
    rintro link tr - - - ⟨m, hm, -⟩
    cases hm
  | cons m later ih =>
    intro link tr hrun hready hsizes hbig
    have hsize := hsizes m (List.mem_cons_self ..)
    rcases Nat.lt_or_ge m.messageSize N with hlt | hge
    · obtain ⟨tr', link', hrun', hcalm, hitems, hsending, hunsent, hreceiving⟩ := run_sent hrun hready hN' hlt
      have hencodable : m.Encodable := Message.encodable_of_messageSize_lt (by omega)
      obtain ⟨tr'', link'', hrun'', hready'⟩ := run_drain hN' (readMessage .empty) hrun' hcalm hsending hunsent
        hreceiving (by rw [hitems]; exact reads_writeMessage hencodable)
      refine ih hrun'' hready' (fun m' hm' => hsizes m' (List.mem_cons_of_mem _ hm')) ?_
      obtain ⟨m', hm', hge⟩ := hbig
      rcases List.mem_cons.1 hm' with rfl | hm'
      · exact absurd hlt (Nat.not_lt.2 hge)
      · exact ⟨m', hm', hge⟩
    · obtain ⟨tr', link', hrun', hmem⟩ := run_refused hrun hready hsize hge
      exact ⟨tr', link', hrun', _, _, hmem⟩

/-! ### The exact limit -/

/-- A message that is too long does not go through in every run. -/
private theorem not_transports_of_le (hN : 1 ≤ N) (hN' : N ≤ 2 ^ 31) (outside : Int → Byte) {ms : List Message}
    (hsizes : ∀ m ∈ ms, m.messageSize < 2 ^ 31) (hbig : ∃ m ∈ ms, N ≤ m.messageSize) :
    ∃ tr link, (machine N outside).Run (start hN ms) tr link ∧ ¬ Transports ms tr := by
  have hready : Ready (start hN ms) ms := by
    refine ⟨⟨rfl, rfl, fun _ => rfl, rfl⟩, ?_, rfl, rfl, rfl⟩
    have hfresh : (DataQueue.connectedNew N hN).buffer.fifo = .empty := ByteRing.fifo_new hN
    exact congrArg BoundedFifo.items hfresh
  have hstart : (machine N outside).Run (start hN ms) [] (start hN ms) := .start
  obtain ⟨tr, link, hrun, p, c, hmem⟩ := exists_refused hN' hstart hready hsizes hbig
  exact ⟨tr, link, hrun, fun htransports => htransports.1 p c hmem⟩

/-- Over a queue of `N` bytes, the messages go through in every run exactly when each of them is shorter than the
queue. -/
theorem transports_iff (hN : 1 ≤ N) (hN' : N ≤ 2 ^ 31) (outside : Int → Byte) (ms : List Message)
    (hsizes : ∀ m ∈ ms, m.messageSize < 2 ^ 31) :
    (∀ tr link, (machine N outside).Run (start hN ms) tr link → Transports ms tr) ↔
      ∀ m ∈ ms, m.messageSize < N := by
  constructor
  · intro hall m hm
    by_contra hge
    obtain ⟨tr, link, hrun, hnot⟩ := not_transports_of_le hN hN' outside hsizes ⟨m, hm, Nat.not_lt.1 hge⟩
    exact hnot (hall tr link hrun)
  · exact fun hlt tr link hrun => transports_of_run hN hN' hlt hrun

/-- A message of one frame. -/
def oneFrame (size : Nat) : Message := ⟨[⟨List.replicate size 0⟩]⟩

theorem messageSize_oneFrame (size : Nat) : (oneFrame size).messageSize = size + 8 := by
  have hframe : (Frame.mk (List.replicate size 0)).size = size := List.length_replicate
  show 0 + ((Frame.mk (List.replicate size 0)).size + 4) + 4 = size + 8
  omega

/-- The longest message that goes through the queues of a connection. -/
theorem transports_iff_longest : (oneFrame 65527).messageSize + 1 = InprocLine.queueSize ∧ ∀ tr link,
    (machine InprocLine.queueSize fun _ => 0).Run (start (by decide) [oneFrame 65527]) tr link →
      Transports [oneFrame 65527] tr := by
  have hsize : ∀ m ∈ [oneFrame 65527], m.messageSize = 65535 := by
    intro m hm
    rw [List.mem_singleton.1 hm, messageSize_oneFrame]
  refine ⟨by rw [messageSize_oneFrame]; rfl, ?_⟩
  refine (transports_iff (by decide) (by decide) (fun _ => 0) _ fun m hm => ?_).2 fun m hm => ?_
  · rw [hsize m hm]
    decide
  · rw [hsize m hm]
    decide

/-- With one byte more it does not. -/
theorem not_transports : ¬ ∀ ms : List Message, (∀ m ∈ ms, m.messageSize < 2 ^ 31) → ∀ tr link,
    (machine InprocLine.queueSize fun _ => 0).Run (start (by decide) ms) tr link → Transports ms tr := by
  intro hall
  have hsizes : ∀ m ∈ [oneFrame 65528], m.messageSize < 2 ^ 31 := by
    intro m hm
    rw [List.mem_singleton.1 hm, messageSize_oneFrame]
    decide
  have hbig : InprocLine.queueSize ≤ (oneFrame 65528).messageSize := by
    rw [messageSize_oneFrame]
    decide
  obtain ⟨tr, link, hrun, hnot⟩ := not_transports_of_le (by decide) (by decide) (fun _ => 0) hsizes
    ⟨_, List.mem_singleton.2 rfl, hbig⟩
  exact hnot (hall _ hsizes tr link hrun)

end Link

end Cppio
