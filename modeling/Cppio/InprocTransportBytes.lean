import Cppio.InprocTransportProgress

/-!
# Which bytes are those of which message

Both ends of a link count messages, and the queue between them counts bytes.  Here the two are compared: when
`sendMessage` has returned for a message, all its bytes were accepted (`accepted_of_results`), and while it waits for
room they were not (`not_accepted_of_write`); when `readMessage` has returned a message, its bytes were delivered
(`delivered_of_received`), and while it waits for bytes they were not (`not_delivered_of_read`).
-/

namespace Cppio

namespace Link

open Monitor MessageProtocol

variable {N : Nat} {ok : Link N → Label → Prop} {outside : Int → Byte} {ms : List Message} {tr es : Trace}
  {link link' : Link N} {hN : 1 ≤ N}

theorem encodings_append (ms ms' : List Message) : encodings (ms ++ ms') = encodings ms ++ encodings ms' :=
  List.flatMap_append ..

/-! ### The sender -/

/-- The messages whose `sendMessage` has begun are the first ones, and the buffer in use holds the last of them. -/
private def Begun (ms : List Message) (link : Link N) : Prop :=
  ∃ begun, begun ++ link.unsent = ms ∧
    ∀ buffer st, link.sending = some (buffer, st) → ∃ earlier m, begun = earlier ++ [m] ∧ buffer = m.writeMessage

private theorem Begun.of_eq (h : Begun ms link) (hunsent : link'.unsent = link.unsent)
    (hsending : ∀ buffer st, link'.sending = some (buffer, st) → ∃ st', link.sending = some (buffer, st')) :
    Begun ms link' := by
  obtain ⟨begun, hms, hlast⟩ := h
  refine ⟨begun, by rw [hunsent, hms], fun buffer st heq => ?_⟩
  obtain ⟨st', hst'⟩ := hsending buffer st heq
  exact hlast buffer st' hst'

private theorem begun_step (h : Begun ms link) (hmove : link.Move outside link' es) : Begun ms link' := by
  cases hmove with
  | @begin m later hidle hsending hunsent =>
    obtain ⟨begun, hms, -⟩ := h
    refine ⟨begun ++ [m], by rw [← hms, hunsent, List.append_assoc]; rfl, fun buffer st heq => ?_⟩
    cases heq
    exact ⟨begun, m, rfl, rfl⟩
  | sent _ _ _ => exact h.of_eq rfl fun buffer st heq => by cases heq
  | @ret t c r s _ _ _ =>
    refine h.of_eq ?_ ?_
    · cases t
      · rfl
      · simp only [resume]
        split <;> rfl
    · intro buffer st heq
      cases t with
      | sender =>
        obtain ⟨⟨buffer', st'⟩, hsending, hpair⟩ := Option.map_eq_some_iff.1 heq
        cases hpair
        exact ⟨st', hsending⟩
      | receiver =>
        simp only [resume] at heq
        split at heq <;> exact ⟨st, heq⟩
  | _ => exact h.of_eq rfl fun buffer st heq => ⟨st, heq⟩

private theorem begun_of_run (hrun : (machine N outside).RunWhere ok (start hN ms) tr link) : Begun ms link := by
  induction hrun with
  | start => exact ⟨[], rfl, fun _ _ heq => by cases heq⟩
  | step _ _ hnext ih => exact begun_step ih (move_of_next hnext)

/-- The bytes of the messages for which `sendMessage` has returned were accepted. -/
theorem accepted_of_results (hN' : N ≤ 2 ^ 31) (hlt : ∀ m ∈ ms, m.messageSize < N)
    (hrun : (machine N outside).RunWhere ok (start hN ms) tr link) :
    (encodings (ms.take (results tr).length)).length ≤ (DataQueue.accepted (onQueue tr)).length := by
  obtain ⟨begun, hms, hlast⟩ := begun_of_run hrun
  obtain ⟨k, hk, hcount⟩ := (sends_of_run hN' hlt hrun).results
  obtain ⟨later, hlater, hstream⟩ := (inv_of_run hN hN' hlt hrun).sender.stream
  have hlater := congrArg List.length hlater
  have hstream := congrArg List.length hstream
  rw [hk, List.length_replicate]
  rw [← hms] at hcount hstream ⊢
  rw [encodings_append] at hstream
  simp only [List.length_append] at hlater hstream hcount
  cases hsending : link.sending with
  | none =>
    rw [hsending] at hcount
    rw [Link.rest, hsending] at hlater
    simp only [Option.isNone_none, if_true, List.length_nil] at hcount hlater
    rw [List.take_append_of_le_length (by omega), List.take_of_length_le (by omega)]
    omega
  | some sending =>
    obtain ⟨buffer, st⟩ := sending
    obtain ⟨earlier, m, rfl, rfl⟩ := hlast buffer st hsending
    rw [hsending] at hcount
    have hrest : link.rest.length ≤ m.writeMessage.length := by
      rw [Link.rest, hsending, List.length_drop]
      exact Nat.sub_le ..
    simp only [Option.isNone_some, Bool.false_eq_true, if_false, List.length_append, List.length_singleton] at hcount
    rw [List.append_assoc, List.take_append_of_le_length (by omega), List.take_of_length_le (by omega)]
    simp only [encodings, List.flatMap_append, List.flatMap_cons, List.flatMap_nil, List.append_nil,
      List.length_append] at hstream hlater ⊢
    omega

/-- While `sendMessage` is in a write that has not put anything into the buffer, not all bytes of the message were
accepted. -/
theorem not_accepted_of_write (hN' : N ≤ 2 ^ 31) (hlt : ∀ m ∈ ms, m.messageSize < N)
    (hrun : (machine N outside).RunWhere ok (start hN ms) tr link) {c : DataQueue.Call} {stage : DataQueue.Stage}
    (hbusy : link.queue.pc .sender = .busy c stage) (hown : own .sender (onQueue tr) = []) :
    (DataQueue.accepted (onQueue tr)).length < (encodings (ms.take ((results tr).length + 1))).length := by
  obtain ⟨begun, hms, hlast⟩ := begun_of_run hrun
  have hsends := sends_of_run hN' hlt hrun
  obtain ⟨k, hk, hcount⟩ := hsends.results
  have hsender := (inv_of_run hN hN' hlt hrun).sender
  obtain ⟨later, hlater, hstream⟩ := hsender.stream
  obtain ⟨⟨buffer, st⟩, hsending⟩ := Option.ne_none_iff_exists'.1 (hsender.call c stage hbusy).1
  obtain ⟨earlier, m, rfl, rfl⟩ := hlast buffer st hsending
  have hrest := List.length_pos_iff.2 (hsends.rest c stage hbusy)
  rw [inCall_before hown, List.nil_append] at hlater
  rw [hsending] at hcount
  rw [hk, List.length_replicate]
  rw [← hms] at hcount hstream ⊢
  rw [encodings_append, ← hlater] at hstream
  have hstream := congrArg List.length hstream
  simp only [Option.isNone_some, Bool.false_eq_true, if_false, List.length_append, List.length_singleton]
    at hcount hstream
  rw [List.take_append_of_le_length (by simp; omega), List.take_of_length_le (by simp; omega)]
  omega

/-! ### The receiver -/

/-- The bytes delivered are those of the messages received, and `current`, which the call of `readMessage` in progress
has read of the next one, and those of the read in progress. -/
private structure Heard (ms : List Message) (tr : Trace) (link : Link N) (current : List Byte) : Prop where
  delivered : DataQueue.delivered (onQueue tr) = encodings (received tr) ++ current ++ inCall .receiver tr link
  next : ∀ m later, ms = received tr ++ m :: later →
    ∃ rest, m.writeMessage = current ++ rest ∧ Takes link.receiving rest (1, m)

/-- A step that shows nothing of the receiver, and leaves it in the call it is in. -/
private theorem Heard.other {current : List Byte} (h : Heard ms tr link current)
    (hreceiving : link'.receiving = link.receiving) (hsame : DataQueue.SameCall .receiver link.queue link'.queue)
    (hes : ∀ x ∈ onQueue es, x.1 ≠ .receiver) (hdelivered : DataQueue.delivered (onQueue es) = [])
    (hreceived : received es = []) : Heard ms (tr ++ es) link' current where
  delivered := by
    rw [onQueue_append, DataQueue.delivered_append, hdelivered, List.append_nil, received_append, hreceived,
      List.append_nil, inCall_append hsame hes]
    exact h.delivered
  next := by
    rw [received_append, hreceived, List.append_nil, hreceiving]
    exact h.next

/-- A message that was received is the next one. -/
theorem outcome_of_done (hinv : Inv ms tr link) {outcome : Int × Message} (h : link.receiving = .done outcome) :
    ∃ m later, ms = received tr ++ m :: later ∧ outcome = (1, m) := by
  obtain ⟨taken, pending, todo, -, -, htodo, hawaits, hfresh⟩ := hinv.receiver.stream
  cases todo with
  | nil =>
    obtain ⟨k, hk⟩ := asks_readMessage .empty
    rw [hfresh rfl, hk] at h
    cases h
  | cons m later =>
    obtain ⟨rest, htakes, -⟩ := hawaits
    rw [h] at htakes
    exact ⟨m, later, htodo.symm, htakes.2⟩

/-- What a read of the receiver returns. -/
private theorem bytes_of_return (hinv : Inv ms tr link) (hrun : (machine N outside).RunWhere ok (start hN ms) tr link)
    {c : DataQueue.Call} {r : DataQueue.Result} (hpc : link.queue.pc .receiver = .busy c (.leave r)) :
    ∃ n k bs, link.receiving = .ask n k ∧ c = .read n ∧ r = .bytes bs ∧ bs.length ≤ n ∧ bs.length < N ∧
      (0 < n → bs ≠ []) ∧ own .receiver (onQueue tr) = [.took bs] := by
  have hqueue := run_onQueue hrun
  have hassert := DataQueue.assertion_of_run hqueue .receiver
  rw [hpc] at hassert
  obtain ⟨-, haccounts, hlost⟩ := hassert
  obtain ⟨n, k, hreceiving, rfl⟩ := hinv.receiver.call c _ hpc
  cases r with
  | bytes bs =>
    obtain ⟨hle, hlt, hne, hown⟩ := haccounts
    exact ⟨n, k, bs, hreceiving, rfl, rfl, hle, hlt, hne, hown⟩
  | count _ | void => exact haccounts.elim
  | error e =>
    cases e with
    | eTimeout | eUnknown | eTooBigBuffer => exact haccounts.elim
    | eConnectionLost =>
      have hfalse := (hlost rfl).2 rfl
      rw [DataQueue.connected_of_run rfl hqueue] at hfalse
      cases hfalse

private theorem heard_step (hN' : N ≤ 2 ^ 31) (hlt : ∀ m ∈ ms, m.messageSize < N)
    (hrun : (machine N outside).RunWhere ok (start hN ms) tr link) (h : ∃ current, Heard ms tr link current)
    (hmove : link.Move outside link' es) : ∃ current, Heard ms (tr ++ es) link' current := by
  have hinv := inv_of_run hN hN' hlt hrun
  obtain ⟨current, h⟩ := h
  cases hmove with
  | begin _ _ _ | sent _ _ _ => exact ⟨current, h.other rfl (.of_eq rfl) (by simp [onQueue]) rfl rfl⟩
  | @write buffer st hidle _ _ =>
    have hreceiver := link.queue.goto_of_ne (show Party.receiver ≠ .sender by decide)
      (.busy (.write (bytesAt buffer outside st.data st.towrite.toNat)) .enter)
    exact ⟨current, h.other rfl (.of_eq hreceiver) (by simp [onQueue]) rfl rfl⟩
  | silent hsame => exact ⟨current, h.other rfl (hsame .receiver) (by simp [onQueue]) rfl rfl⟩
  | @read n k hidle hreceiving =>
    refine ⟨current, ⟨?_, ?_⟩⟩
    · have hdelivered := h.delivered
      rw [inCall_idle hidle] at hdelivered
      rw [inCall, onQueue_append, DataQueue.delivered_append, hdelivered, received_append]
      simp [onQueue, DataQueue.delivered, DataQueue.tookBytes, received, Receiver.received]
    · rw [received_append]
      simpa [received, Receiver.received] using h.next
  | @received outcome hidle hreceiving =>
    obtain ⟨m, later, hms, rfl⟩ := outcome_of_done hinv hreceiving
    obtain ⟨rest, hsplit, htakes⟩ := h.next m later hms
    rw [hreceiving] at htakes
    obtain ⟨rfl, -⟩ := htakes
    rw [List.append_nil] at hsplit
    have hone : received (tr ++ [.received (1, m)]) = received tr ++ [m] := by rw [received_append]; rfl
    refine ⟨[], ⟨?_, fun m' later' hms' => ?_⟩⟩
    · have hdelivered := h.delivered
      rw [inCall_idle hidle, ← hsplit, List.append_nil] at hdelivered
      rw [inCall, if_pos hidle, onQueue_append, DataQueue.delivered_append, hdelivered, hone, encodings_append]
      simp [onQueue, DataQueue.delivered, encodings]
    · have hmem : m' ∈ ms := by simp [hms', hone]
      exact ⟨m'.writeMessage, rfl,
        reads_writeMessage (Message.encodable_of_messageSize_lt (by have := hlt m' hmem; omega))⟩
  | @took t c n s hpc hc hsame =>
    cases t with
    | sender =>
      obtain ⟨-, rfl⟩ := hinv.sender.call c _ hpc
      cases hc
    | receiver =>
      have hown : own .receiver (onQueue tr) = [] := by
        have hassert := DataQueue.assertion_of_run (run_onQueue hrun) .receiver
        rw [hpc] at hassert
        exact hassert.2.2
      obtain ⟨stage, hstage⟩ := (hsame .receiver).2 _ _ hpc
      refine ⟨current, ⟨?_, ?_⟩⟩
      · have hdelivered := h.delivered
        rw [inCall_before hown, List.append_nil] at hdelivered
        rw [inCall_access hown hstage, onQueue_append, DataQueue.delivered_append, hdelivered, received_append]
        simp [onQueue, DataQueue.delivered, DataQueue.tookBytes, moved, received, Receiver.received]
      · rw [received_append]
        simpa [received, Receiver.received] using h.next
  | @put t buffer s hpc hsame =>
    cases t with
    | sender => exact ⟨current, h.other rfl (hsame .receiver) (by simp [onQueue]) rfl rfl⟩
    | receiver =>
      obtain ⟨n, k, -, hread⟩ := hinv.receiver.call _ _ hpc
      cases hread
  | @ret t c r s hpc hidle hother =>
    cases t with
    | sender =>
      refine ⟨current, h.other rfl ?_ (by simp [onQueue]) rfl rfl⟩
      rw [resume_queue]
      exact hother .receiver (by decide)
    | receiver =>
      obtain ⟨n, k, bs, hreceiving, rfl, rfl, hle, hltN, hne, hown⟩ := bytes_of_return hinv hrun hpc
      have hreceiving' :
          (resume { link with queue := s } (.receiver, .event (.ret (.read n) (.bytes bs)))).receiving =
          k (.ok bs) := by
        simp only [resume, hreceiving]
        rfl
      have hdelivered := h.delivered
      rw [inCall_busy (by rw [hpc]; exact DataQueue.Point.noConfusion), hown, List.flatMap_singleton, moved]
        at hdelivered
      refine ⟨current ++ bs, ⟨?_, fun m later hms => ?_⟩⟩
      · rw [inCall_idle (by rw [resume_queue]; exact hidle), onQueue_append, DataQueue.delivered_append, hdelivered,
          received_append]
        simp [onQueue, DataQueue.delivered, DataQueue.tookBytes, received, Receiver.received]
      · have hsame : received (tr ++ [.queue (.receiver, .event (.ret (.read n) (.bytes bs)))]) = received tr := by
          rw [received_append]
          simp [received, Receiver.received]
        rw [hsame] at hms
        obtain ⟨rest, hsplit, htakes⟩ := h.next m later hms
        rw [hreceiving] at htakes
        -- the bytes belong to the message, as no more was asked for than is left of it
        have hfirst : DataQueue.delivered (onQueue tr) <+: encodings ms := by
          obtain ⟨later', -, hstream⟩ := hinv.sender.stream
          have hconserved := DataQueue.conserved_of_run (ByteRing.fifo_new hN) (run_onQueue hrun)
          exact hconserved.isPrefix.trans ⟨later', hstream⟩
        have hcons : encodings (m :: later) = m.writeMessage ++ encodings later := rfl
        rw [hdelivered, hms, encodings_append, hcons, hsplit, List.append_assoc, List.append_assoc,
          List.prefix_append_right_inj, List.prefix_append_right_inj] at hfirst
        obtain ⟨rest', rfl⟩ :=
          List.prefix_of_prefix_length_le hfirst (List.prefix_append _ _) (hle.trans htakes.ask_le)
        refine ⟨rest', by rw [hsplit, List.append_assoc], ?_⟩
        rw [hreceiving']
        have hpos := htakes.ask_pos
        exact htakes.next (hne hpos) hle (fitsInt_of_lt (hne hpos) (by omega))

private theorem heard_of_run (hN' : N ≤ 2 ^ 31) (hlt : ∀ m ∈ ms, m.messageSize < N)
    (hrun : (machine N outside).RunWhere ok (start hN ms) tr link) : ∃ current, Heard ms tr link current := by
  induction hrun with
  | start =>
    refine ⟨[], ⟨rfl, fun m later hms => ⟨m.writeMessage, rfl, reads_writeMessage ?_⟩⟩⟩
    have hmem : m ∈ ms := by
      rw [hms]
      simp
    exact Message.encodable_of_messageSize_lt (by have := hlt m hmem; omega)
  | step hrun _ hnext ih => exact heard_step hN' hlt hrun ih (move_of_next hnext)

private theorem received_eq_take (hinv : Inv ms tr link) : received tr = ms.take (received tr).length := by
  obtain ⟨-, -, todo, -, -, htodo, -⟩ := hinv.receiver.stream
  rw [← htodo, List.take_left]

/-- The bytes of the messages received were delivered. -/
theorem delivered_of_received (hN' : N ≤ 2 ^ 31) (hlt : ∀ m ∈ ms, m.messageSize < N)
    (hrun : (machine N outside).RunWhere ok (start hN ms) tr link) :
    (encodings (ms.take (received tr).length)).length ≤ (DataQueue.delivered (onQueue tr)).length := by
  obtain ⟨current, h⟩ := heard_of_run hN' hlt hrun
  rw [h.delivered, ← received_eq_take (inv_of_run hN hN' hlt hrun), List.append_assoc, List.length_append]
  exact Nat.le_add_right ..

/-- While `readMessage` is in a read that has not taken anything out of the buffer, not all bytes of the next message
were delivered. -/
theorem not_delivered_of_read (hN' : N ≤ 2 ^ 31) (hlt : ∀ m ∈ ms, m.messageSize < N)
    (hrun : (machine N outside).RunWhere ok (start hN ms) tr link) {c : DataQueue.Call} {stage : DataQueue.Stage}
    (hbusy : link.queue.pc .receiver = .busy c stage) (hown : own .receiver (onQueue tr) = [])
    (hmore : (received tr).length < ms.length) :
    (DataQueue.delivered (onQueue tr)).length < (encodings (ms.take ((received tr).length + 1))).length := by
  obtain ⟨current, h⟩ := heard_of_run hN' hlt hrun
  have hinv := inv_of_run hN hN' hlt hrun
  obtain ⟨-, -, todo, -, -, htodo, -⟩ := hinv.receiver.stream
  obtain ⟨n, k, hreceiving, -⟩ := hinv.receiver.call c stage hbusy
  cases todo with
  | nil =>
    rw [← htodo, List.append_nil] at hmore
    exact absurd hmore (Nat.lt_irrefl _)
  | cons m later =>
    obtain ⟨rest, hsplit, htakes⟩ := h.next m later htodo.symm
    rw [hreceiving] at htakes
    have hle := htakes.ask_le
    have hpos := htakes.ask_pos
    have htake : ms.take ((received tr).length + 1) = received tr ++ [m] := by
      rw [← htodo, List.take_length_add_append]
      rfl
    have hone : encodings [m] = m.writeMessage := List.append_nil _
    rw [h.delivered, inCall_before hown, List.append_nil, htake, encodings_append, hone, hsplit]
    simp only [List.length_append]
    omega

end Link

end Cppio
