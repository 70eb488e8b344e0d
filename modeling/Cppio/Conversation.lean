import Cppio.InprocTransportBytes
import Cppio.Lib.KeyedQueue

/-!
# Conversations over an in-process connection

Two programs that agree who speaks: in every turn one end sends a message with `sendMessage`, and the other end calls
`readMessage`.  Each end takes its turns in this order and at its own pace, so that they can be in different turns.
A connection has a queue for each direction, so a conversation is made of two links; the thread of an end is the
sender of one of them and the receiver of the other.

Such programs never wait for each other (`conversation_ends`).  A deadlock would need an end that is behind, or not
ahead, and cannot go on (`turns_of_ended`): it cannot wait for room, as the other end has read what it sent in earlier
turns, and it cannot wait for bytes, as the other end has sent what it reads.
-/

namespace Cppio

/-- The two programs, and the queues between them. -/
structure Conversation (N : Nat) where
  /-- The messages of an end, on their way to the other one. -/
  link : End → Link N
  /-- Who speaks in the turns that an end has still to take. -/
  turns : End → List End

namespace Conversation

open Monitor MessageProtocol KeyedQueue

variable {N : Nat}

/-- Something happens on the way from an end to the other one. -/
structure Label where
  speaker : End
  step : Link.Label

abbrev Event := End × Link.Event

abbrev Trace := List Event

/-- The conversation `talk`: who speaks, and what. -/
def start (hN : 1 ≤ N) (talk : List (End × Message)) : Conversation N where
  link e := .start hN (queue talk e)
  turns _ := talk.map Prod.fst

/-- An end calls `sendMessage` when it is its turn to speak, and `readMessage` when it is the other's. -/
def Permits (c : Conversation N) (e : End) : Link.Label → Prop
  | .send => (c.turns e).head? = some e
  | .receive => (c.turns e.peer).head? = some e
  | .queue _ => True

instance (c : Conversation N) (e : End) (l : Link.Label) : Decidable (c.Permits e l) :=
  match l with
  | .send => inferInstanceAs (Decidable ((c.turns e).head? = some e))
  | .receive => inferInstanceAs (Decidable ((c.turns e.peer).head? = some e))
  | .queue _ => isTrue trivial

/-- With the return of `sendMessage` or `readMessage` a turn is over for the end that called it. -/
def advance (e : End) (turns : End → List End) : Link.Event → End → List End
  | .sent _ => Function.update turns e (turns e).tail
  | .received _ => Function.update turns e.peer (turns e.peer).tail
  | .queue _ => turns

def next (outside : Int → Byte) (c : Conversation N) (l : Label) : Option (Conversation N × Trace) :=
  if c.Permits l.speaker l.step then
    (Link.next outside (c.link l.speaker) l.step).map fun (link, es) =>
      ({ link := Function.update c.link l.speaker link, turns := es.foldl (advance l.speaker) c.turns },
        es.map fun x => (l.speaker, x))
  else none

def machine (N : Nat) (outside : Int → Byte) : Machine (Conversation N) Label Event := ⟨next outside⟩

/-- No thread can go on without a spurious wake-up. -/
def Ended (outside : Int → Byte) (c : Conversation N) : Prop :=
  ∀ l, Link.isWake l.step = false → next outside c l = none

/-! ### What one step can do -/

variable {ok : Conversation N → Label → Prop} {outside : Int → Byte} {talk : List (End × Message)} {tr es : Trace}
  {c c' : Conversation N} {l : Label} {hN : 1 ≤ N}

theorem link_of_next (h : next outside c l = some (c', es)) : c.Permits l.speaker l.step ∧ ∃ link es',
    Link.next outside (c.link l.speaker) l.step = some (link, es') ∧
      c' = { link := Function.update c.link l.speaker link, turns := es'.foldl (advance l.speaker) c.turns } ∧
      es = es'.map fun x => (l.speaker, x) := by
  simp only [next] at h
  split at h
  · rename_i hpermits
    obtain ⟨⟨link, es'⟩, hnext, heq⟩ := Option.map_eq_some_iff.1 h
    cases heq
    exact ⟨hpermits, link, es', hnext, rfl, rfl⟩
  · cases h

theorem queue_map_self (e : End) (es : Link.Trace) : queue (es.map fun x => (e, x)) e = es := by
  simp [queue, List.filterMap_map]

theorem queue_map_of_ne {e e' : End} (hne : e' ≠ e) (es : Link.Trace) : queue (es.map fun x => (e', x)) e = [] := by
  simp [queue, List.filterMap_map, hne]

theorem queue_append_map (tr : Trace) (e e' : End) (es : Link.Trace) :
    queue (tr ++ es.map fun x => (e', x)) e = if e' = e then queue tr e ++ es else queue tr e := by
  rw [queue, List.filterMap_append]
  show queue tr e ++ queue (es.map fun x => (e', x)) e = _
  by_cases h : e' = e
  · rw [if_pos h, h, queue_map_self]
  · rw [if_neg h, queue_map_of_ne h, List.append_nil]

/-- Each direction is a link of its own. -/
theorem run_link (hrun : (machine N outside).RunWhere ok (start hN talk) tr c) (e : End) :
    (Link.machine N outside).Run (Link.start hN (queue talk e)) (queue tr e) (c.link e) := by
  refine hrun.project (fun c => c.link e) _ fun c l c' es _ hnext => ?_
  obtain ⟨-, link, es', hstep, rfl, rfl⟩ := link_of_next hnext
  show _ ∧ queue (es'.map fun x => (l.speaker, x)) e = [] ∨
    ∃ l', _ = some (_, queue (es'.map fun x => (l.speaker, x)) e)
  by_cases he : l.speaker = e
  · subst he
    right
    refine ⟨l.step, ?_⟩
    rw [queue_map_self]
    simp only [Function.update_self]
    exact hstep
  · left
    exact ⟨Function.update_of_ne (Ne.symm he) _ _, queue_map_of_ne he es'⟩

/-- What a link shows: its queue, or the return of `sendMessage` or of `readMessage`. -/
theorem events_of_next {link link' : Link N} {l : Link.Label} {es : Link.Trace}
    (h : Link.next outside link l = some (link', es)) :
    (∃ es' : DataQueue.Trace Party, es = es'.map .queue) ∨ (l = .send ∧ es = [.sent 1]) ∨
      ∃ outcome, l = .receive ∧ link.receiving = .done outcome ∧ es = [.received outcome] := by
  cases l with
  | send =>
    simp only [Link.next] at h
    split at h
    · split at h
      · split at h <;> cases h
        exact .inl ⟨[], rfl⟩
      · split at h
        · obtain ⟨-, rfl⟩ := Link.call_eq h
          exact .inl ⟨[_], rfl⟩
        · cases h
          exact .inr (.inl ⟨rfl, rfl⟩)
    · cases h
  | receive =>
    simp only [Link.next] at h
    split at h
    · split at h
      · obtain ⟨-, rfl⟩ := Link.call_eq h
        exact .inl ⟨[_], rfl⟩
      · rename_i outcome hreceiving
        cases h
        exact .inr (.inr ⟨outcome, rfl, hreceiving, rfl⟩)
    · cases h
  | queue l =>
    obtain ⟨-, s, es', -, -, rfl⟩ := Link.queue_eq h
    exact .inl ⟨es', rfl⟩

theorem foldl_advance_queue (e : End) (turns : End → List End) (es : DataQueue.Trace Party) :
    (es.map Link.Event.queue).foldl (advance e) turns = turns := by
  induction es with
  | nil => rfl
  | cons x es ih => exact ih

/-! ### Turns -/

/-- An end has taken the first turns of the conversation, and they are as many as the messages it has sent and
received. -/
def Counted (talk : List (End × Message)) (tr : Trace) (e : End) (turns : List End) : Prop :=
  ∃ done, done ++ turns = talk.map Prod.fst ∧ done.count e = (Link.results (queue tr e)).length ∧
    done.count e.peer = (Link.received (queue tr e.peer)).length

/-- An end that takes no turn in this step. -/
private theorem Counted.other {e e' : End} {turns : List End} {es' : Link.Trace} (h : Counted talk tr e turns)
    (hsent : e' = e → Link.results es' = []) (hreceived : e' = e.peer → Link.received es' = []) :
    Counted talk (tr ++ es'.map fun x => (e', x)) e turns := by
  obtain ⟨done, htalk, hresults, hheard⟩ := h
  refine ⟨done, htalk, ?_, ?_⟩
  · rw [queue_append_map]
    split
    · rw [Link.results_append, hsent ‹_›, List.append_nil, hresults]
    · exact hresults
  · rw [queue_append_map]
    split
    · rw [Link.received_append, hreceived ‹_›, List.append_nil, hheard]
    · exact hheard

private theorem Counted.spoke {e : End} {turns : List End} (h : Counted talk tr e (e :: turns)) :
    Counted talk (tr ++ [.sent 1].map fun x => (e, x)) e turns := by
  obtain ⟨done, htalk, hresults, hheard⟩ := h
  refine ⟨done ++ [e], by rw [← htalk, List.append_assoc]; rfl, ?_, ?_⟩
  · rw [queue_append_map, if_pos rfl, Link.results_append, List.count_append, hresults, List.length_append,
      List.count_singleton_self]
    rfl
  · rw [queue_append_map, if_neg e.peer_ne.symm, List.count_append, hheard, List.count_singleton,
      if_neg (by simpa using e.peer_ne.symm), Nat.add_zero]

theorem peer_peer (e : End) : e.peer.peer = e := by
  cases e <;> rfl

private theorem Counted.listened {e : End} {turns : List End} (h : Counted talk tr e.peer (e :: turns))
    (m : Message) :
    Counted talk (tr ++ [.received (1, m)].map fun x => (e, x)) e.peer turns := by
  obtain ⟨done, htalk, hresults, hheard⟩ := h
  rw [peer_peer] at hheard
  refine ⟨done ++ [e], by rw [← htalk, List.append_assoc]; rfl, ?_, ?_⟩
  · rw [queue_append_map, if_neg e.peer_ne.symm, List.count_append, hresults, List.count_singleton,
      if_neg (by simpa using e.peer_ne.symm), Nat.add_zero]
  · rw [peer_peer, queue_append_map, if_pos rfl, Link.received_append, List.count_append, hheard, List.length_append,
      List.count_singleton_self]
    rfl

private theorem eq_cons_of_head? {e : End} {turns : List End} (h : turns.head? = some e) :
    turns = e :: turns.tail := by
  cases turns with
  | nil => cases h
  | cons e' turns =>
    cases h
    rfl

/-- The messages of each end are shorter than the queue. -/
theorem said_lt (hlt : ∀ x ∈ talk, x.2.messageSize < N) (e : End) : ∀ m ∈ queue talk e, m.messageSize < N :=
  fun m hm => hlt (e, m) (mem_queue.1 hm)

theorem counted_of_run (hN' : N ≤ 2 ^ 31) (hlt : ∀ x ∈ talk, x.2.messageSize < N)
    (hrun : (machine N outside).RunWhere ok (start hN talk) tr c) (e : End) : Counted talk tr e (c.turns e) := by
  induction hrun generalizing e with
  | start => exact ⟨[], rfl, rfl, rfl⟩
  | @step tr c l c' es hrun _ hnext ih =>
    obtain ⟨hpermits, link, es', hstep, rfl, rfl⟩ := link_of_next hnext
    have hcounted := ih e
    rcases events_of_next hstep with ⟨es₁, rfl⟩ | ⟨hl, rfl⟩ | ⟨outcome, hl, hreceiving, rfl⟩
    · -- something at the queue
      simp only [foldl_advance_queue]
      refine hcounted.other (fun _ => ?_) fun _ => ?_
      · simp [Link.results]
      · simp [Link.received, Receiver.received]
    · rw [hl] at hpermits
      by_cases he : e = l.speaker
      · subst he
        have hturns := eq_cons_of_head? hpermits
        rw [hturns] at hcounted
        simp only [List.foldl_cons, List.foldl_nil, advance, Function.update_self]
        exact hcounted.spoke
      · simp only [List.foldl_cons, List.foldl_nil, advance, Function.update_of_ne he]
        exact hcounted.other (fun heq => absurd heq.symm he) fun _ => rfl
    · rw [hl] at hpermits
      obtain ⟨m, later, -, rfl⟩ :=
        Link.outcome_of_done (Link.inv_of_run hN hN' (said_lt hlt l.speaker) (run_link hrun l.speaker)) hreceiving
      by_cases he : e = l.speaker.peer
      · subst he
        have hturns := eq_cons_of_head? hpermits
        rw [hturns] at hcounted
        simp only [List.foldl_cons, List.foldl_nil, advance, Function.update_self]
        exact hcounted.listened m
      · simp only [List.foldl_cons, List.foldl_nil, advance, Function.update_of_ne he]
        exact hcounted.other (fun _ => rfl) fun heq => absurd (by rw [heq, peer_peer]) he

/-! ### Nobody waits for the other -/

private theorem none_of_ended (hended : c.Ended outside) {e : End} {l : Link.Label} (hwake : Link.isWake l = false)
    (hpermits : c.Permits e l) : Link.next outside (c.link e) l = none := by
  have h := hended ⟨e, l⟩ hwake
  rw [next, if_pos hpermits] at h
  exact Option.map_eq_none_iff.1 h

private theorem stuck_of_ended (hended : c.Ended outside) (e : End) :
    Stuck (DataQueue.program N DataQueue.dataCalls) (c.link e).queue :=
  Link.stuck_of_none fun _ hwake => none_of_ended hended hwake trivial

/-- An end that cannot go on in a turn where it speaks is in a write. -/
private theorem writing_of_turn (hN' : N ≤ 2 ^ 31) (hlt : ∀ x ∈ talk, x.2.messageSize < N)
    (hrun : (machine N outside).RunWhere ok (start hN talk) tr c) (hended : c.Ended outside) {e : End}
    (hturn : (c.turns e).head? = some e) : ∃ call stage, (c.link e).queue.pc .sender = .busy call stage := by
  cases hpc : (c.link e).queue.pc .sender with
  | busy call stage => exact ⟨call, stage, rfl⟩
  | idle =>
    -- otherwise it would have sent all its messages, and the one of this turn is among them
    obtain ⟨hsending, hunsent⟩ := Link.sent_of_none (none_of_ended hended (l := .send) rfl hturn) hpc
    obtain ⟨k, hk, hcount⟩ := (Link.sends_of_run hN' (said_lt hlt e) (run_link hrun e)).results
    obtain ⟨done, htalk, hresults, -⟩ := counted_of_run hN' hlt hrun e
    rw [eq_cons_of_head? hturn] at htalk
    have hlength := length_queue talk e
    rw [← htalk, List.count_append, List.count_cons_self, hresults, hk, List.length_replicate] at hlength
    rw [hsending, hunsent] at hcount
    simp only [Option.isNone_none, if_true, List.length_nil] at hcount
    omega

/-- The two threads at a queue do not wait for each other. -/
private theorem not_both (hN' : N ≤ 2 ^ 31) (hlt : ∀ x ∈ talk, x.2.messageSize < N)
    (hrun : (machine N outside).RunWhere ok (start hN talk) tr c) (hended : c.Ended outside) {e : End}
    {call call' : DataQueue.Call} {stage stage' : DataQueue.Stage}
    (hwrite : (c.link e).queue.pc .sender = .busy call stage)
    (hread : (c.link e).queue.pc .receiver = .busy call' stage') : False := by
  have hrun' := run_link hrun e
  have hinv := Link.inv_of_run hN hN' (said_lt hlt e) hrun'
  have hsize := (Link.sends_of_run hN' (said_lt hlt e) hrun').size (hinv.sender.call call stage hwrite).1
  obtain ⟨n, -, -, rfl⟩ := hinv.receiver.call call' stage' hread
  have hidle := (DataQueue.no_deadlock_of_one_reader hsize (Link.run_onQueue hrun') (Link.oneReader_of_run hrun')
    (stuck_of_ended hended e) hread rfl).2 .sender (by decide)
  rw [hwrite] at hidle
  cases hidle

theorem length_encodings_take_le (ms : List Message) {i j : Nat} (h : i ≤ j) :
    (encodings (ms.take i)).length ≤ (encodings (ms.take j)).length := by
  have htake : ms.take i = (ms.take j).take i := by rw [List.take_take, Nat.min_eq_left h]
  rw [htake]
  have hsplit := congrArg encodings (List.take_append_drop i (ms.take j))
  rw [Link.encodings_append] at hsplit
  have := congrArg List.length hsplit
  rw [List.length_append] at this
  omega

/-- Of the two ends, one has turns left, and no fewer than the other. -/
private theorem exists_behind (h : ∃ e, c.turns e ≠ []) :
    ∃ e, c.turns e ≠ [] ∧ (c.turns e.peer).length ≤ (c.turns e).length := by
  obtain ⟨e, he⟩ := h
  by_cases hle : (c.turns e.peer).length ≤ (c.turns e).length
  · exact ⟨e, he, hle⟩
  · refine ⟨e.peer, List.length_pos_iff.1 (by omega), ?_⟩
    rw [peer_peer]
    omega

/-- When nobody can go on, all turns were taken. -/
theorem turns_of_ended (hN' : N ≤ 2 ^ 31) (hlt : ∀ x ∈ talk, x.2.messageSize < N)
    (hrun : (machine N outside).RunWhere ok (start hN talk) tr c) (hended : c.Ended outside) (e : End) :
    c.turns e = [] := by
  by_contra hne
  obtain ⟨e, hne, hle⟩ := exists_behind ⟨e, hne⟩
  obtain ⟨speaker, rest, hturns⟩ := List.exists_cons_of_ne_nil hne
  obtain ⟨done, htalk, hsent, hheard⟩ := counted_of_run hN' hlt hrun e
  obtain ⟨done', htalk', hsent', hheard'⟩ := counted_of_run hN' hlt hrun e.peer
  rw [peer_peer] at hheard'
  rw [hturns] at htalk hle
  -- the other end is in the same turn, or has taken it
  have hahead : c.turns e.peer = speaker :: rest ∨ (done ++ [speaker]) <+: done' := by
    have hlength := congrArg List.length (htalk.trans htalk'.symm)
    simp only [List.length_append, List.length_cons] at hlength hle
    by_cases heq : done.length = done'.length
    · exact .inl (List.append_inj (htalk.trans htalk'.symm) heq).2.symm
    · refine .inr (List.prefix_of_prefix_length_le ⟨rest, ?_⟩ ⟨c.turns e.peer, htalk'⟩ (by simp; omega))
      rw [← htalk, List.append_assoc]
      rfl
  have hcount : (done ++ [speaker]) <+: done' → done.count speaker + 1 ≤ done'.count speaker := by
    intro h
    have := h.sublist.count_le speaker
    rwa [List.count_append, List.count_singleton_self] at this
  by_cases hspeaker : speaker = e
  · -- it waits for room, but what it is sending was read, or is being read
    subst hspeaker
    have hrun' := run_link hrun speaker
    obtain ⟨call, stage, hwrite⟩ := writing_of_turn hN' hlt hrun hended (by rw [hturns]; rfl)
    have hqueue := Link.run_onQueue hrun'
    have hown := DataQueue.own_of_stuck hqueue (stuck_of_ended hended speaker) hwrite
    have hnot := Link.not_accepted_of_write hN' (said_lt hlt speaker) hrun' hwrite hown
    rcases hahead with hsame | hahead
    · obtain ⟨call', stage', hread⟩ :=
        Link.busy_of_none (none_of_ended hended (e := speaker) (l := .receive) rfl (by rw [Permits, hsame]; rfl))
      exact not_both hN' hlt hrun hended hwrite hread
    · have hdelivered := Link.delivered_of_received hN' (said_lt hlt speaker) hrun'
      have hle := (DataQueue.conserved_of_run (ByteRing.fifo_new hN) hqueue).isPrefix.length_le
      have hmore := hcount hahead
      rw [hsent, hheard'] at hmore
      have := length_encodings_take_le (queue talk speaker) hmore
      omega
  · -- it waits for bytes, but they were sent, or are being sent
    obtain rfl := End.eq_peer hspeaker
    have hrun' := run_link hrun e.peer
    obtain ⟨call, stage, hread⟩ :=
      Link.busy_of_none (none_of_ended hended (e := e.peer) (l := .receive) rfl
        (by rw [Permits, peer_peer, hturns]; rfl))
    rcases hahead with hsame | hahead
    · obtain ⟨call', stage', hwrite⟩ := writing_of_turn hN' hlt hrun hended (e := e.peer) (by rw [hsame]; rfl)
      exact not_both hN' hlt hrun hended hwrite hread
    · have hqueue := Link.run_onQueue hrun'
      have hstuck := stuck_of_ended hended e.peer
      obtain ⟨n, k, -, rfl⟩ := (Link.inv_of_run hN hN' (said_lt hlt e.peer) hrun').receiver.call call stage hread
      have hempty := ((DataQueue.readers_not_lost hqueue).2 hstuck _ _ _ hread).2 rfl
      rw [DataQueue.availableReadSize, ByteRing.availableReadSize_eq] at hempty
      have hdrained :=
        (DataQueue.conserved_of_run (ByteRing.fifo_new hN) hqueue).drained (List.length_eq_zero_iff.1 hempty)
      have hlength := length_queue talk e.peer
      rw [← htalk, List.count_append, List.count_cons_self, hheard] at hlength
      have hnot := Link.not_delivered_of_read hN' (said_lt hlt e.peer) hrun' hread
        (DataQueue.own_of_stuck hqueue hstuck hread) (by omega)
      have haccepted := Link.accepted_of_results hN' (said_lt hlt e.peer) hrun'
      have hmore := hcount hahead
      rw [hheard, hsent'] at hmore
      have := length_encodings_take_le (queue talk e.peer) hmore
      rw [hdrained] at hnot
      omega

/-- When all turns were taken, all messages were received, and every `sendMessage` has returned 1. -/
theorem received_of_turns (hN' : N ≤ 2 ^ 31) (hlt : ∀ x ∈ talk, x.2.messageSize < N)
    (hrun : (machine N outside).RunWhere ok (start hN talk) tr c) (hturns : ∀ e, c.turns e = []) (e : End) :
    Link.received (queue tr e) = queue talk e ∧
      Link.results (queue tr e) = List.replicate (queue talk e).length 1 := by
  have hrun' := run_link hrun e
  obtain ⟨done, htalk, hresults, -⟩ := counted_of_run hN' hlt hrun e
  obtain ⟨done', htalk', -, hheard⟩ := counted_of_run hN' hlt hrun e.peer
  rw [hturns, List.append_nil] at htalk htalk'
  rw [peer_peer] at hheard
  have hlength := length_queue talk e
  constructor
  · refine (Link.transports_of_run hN hN' (said_lt hlt e) hrun').2.eq_of_length ?_
    rw [hlength, ← htalk', hheard]
  · obtain ⟨k, hk, -⟩ := (Link.sends_of_run hN' (said_lt hlt e) hrun').results
    rw [hk, List.length_replicate] at hresults
    rw [hk, hlength, ← htalk, hresults]

/-! ### Conversations end -/

/-- The potential of a conversation is that of its links. -/
def potential (talk : List (End × Message)) (tr : Trace) (c : Conversation N) : Nat :=
  Link.potential (queue talk .client) (queue tr .client) (c.link .client) +
    Link.potential (queue talk .server) (queue tr .server) (c.link .server)

/-- Every step but a spurious wake-up lowers the potential. -/
theorem potential_of_next (hN' : N ≤ 2 ^ 31) (hlt : ∀ x ∈ talk, x.2.messageSize < N)
    (hrun : (machine N outside).Run (start hN talk) tr c) (h : (machine N outside).next c l = some (c', es)) :
    potential talk (tr ++ es) c' + 1 ≤ potential talk tr c + if Link.isWake l.step then 8 else 0 := by
  obtain ⟨speaker, step⟩ := l
  obtain ⟨-, link, es', hstep, rfl, rfl⟩ := link_of_next h
  have hle := Link.potential_of_next hN' (said_lt hlt speaker) (run_link hrun speaker) hstep
  have hother : ∀ e, e ≠ speaker → queue (tr ++ es'.map fun x => (speaker, x)) e = queue tr e := by
    intro e he
    rw [queue_append_map, if_neg (Ne.symm he)]
  have hself : queue (tr ++ es'.map fun x => (speaker, x)) speaker = queue tr speaker ++ es' := by
    rw [queue_append_map, if_pos rfl]
  cases speaker with
  | client =>
    simp only [potential, hself, hother .server (by decide), Function.update_self,
      Function.update_of_ne (show End.server ≠ .client by decide)] at hle ⊢
    omega
  | server =>
    simp only [potential, hself, hother .client (by decide), Function.update_self,
      Function.update_of_ne (show End.client ≠ .server by decide)] at hle ⊢
    omega

theorem length_queues (talk : List (End × Message)) :
    (encodings (queue talk .client)).length + (encodings (queue talk .server)).length =
        (encodings (talk.map Prod.snd)).length ∧
      (queue talk .client).length + (queue talk .server).length = talk.length := by
  induction talk with
  | nil => exact ⟨rfl, rfl⟩
  | cons x talk ih =>
    obtain ⟨e, m⟩ := x
    cases e <;> simp only [queue, encodings, List.filterMap_cons, List.map_cons, List.flatMap_cons, List.length_cons,
      List.length_append, if_true, reduceCtorEq, if_false] at ih ⊢ <;> omega

private theorem potential_start (hN : 1 ≤ N) (ms : List Message) :
    Link.potential ms [] (Link.start hN ms) = 32 * (encodings ms).length + 11 * ms.length + 14 := by
  obtain ⟨k, hk⟩ := Link.asks_readMessage .empty
  simp [Link.potential, Link.due, Link.rank, Link.start, State.start, State.Awake, hk, Link.onQueue,
    DataQueue.accepted, DataQueue.delivered]
  omega

/-- Two programs that agree who speaks, with messages shorter than the queue, never wait for each other.  Every
schedule is no longer than the messages allow, but for its spurious wake-ups; at any time the messages that an end has
received are, in order, the first of those the other end says; when nobody can go on any more, both have taken all
their turns, all messages were received and every call of `sendMessage` has returned 1; and every schedule can be
continued to such an end. -/
theorem conversation_ends (hN : 1 ≤ N) (hN' : N ≤ 2 ^ 31) (outside : Int → Byte) (talk : List (End × Message))
    (hlt : ∀ x ∈ talk, x.2.messageSize < N) (ls : List Label) (tr : Trace) (c : Conversation N)
    (hexec : (machine N outside).exec (start hN talk) ls = some (c, tr)) :
    ls.length ≤ 32 * (encodings (talk.map Prod.snd)).length + 11 * talk.length + 28 +
        8 * ls.countP (fun l => Link.isWake l.step) ∧
      (∀ e, Link.received (queue tr e) <+: queue talk e) ∧
      (c.Ended outside → ∀ e, c.turns e = [] ∧ Link.received (queue tr e) = queue talk e ∧
        Link.results (queue tr e) = List.replicate (queue talk e).length 1) ∧
      ∃ ls' c' tr', (∀ l ∈ ls', Link.isWake l.step = false) ∧
        (machine N outside).exec c ls' = some (c', tr') ∧ c'.Ended outside ∧
        ∀ e, c'.turns e = [] ∧ Link.received (queue (tr ++ tr') e) = queue talk e := by
  have hrun := Machine.RunWhere.of_exec hexec
  have hend : ∀ {tr c}, (machine N outside).Run (start hN talk) tr c → c.Ended outside → ∀ e, c.turns e = [] ∧
      Link.received (queue tr e) = queue talk e ∧
        Link.results (queue tr e) = List.replicate (queue talk e).length 1 := by
    intro tr c hrun hended e
    have hturns := turns_of_ended hN' hlt hrun hended
    exact ⟨hturns e, received_of_turns hN' hlt hrun hturns e⟩
  refine ⟨?_, fun e => (Link.transports_of_run hN hN' (said_lt hlt e) (run_link hrun e)).2, hend hrun, ?_⟩
  · have hlength : ls.length + potential talk tr c ≤
        potential talk [] (start hN talk) + 8 * ls.countP fun l => Link.isWake l.step :=
      Machine.length_le_of_potential (potential talk)
        (fun _ _ _ _ _ hrun hnext => potential_of_next hN' hlt hrun hnext) hexec
    have hstart : potential talk [] (start hN talk) =
        32 * (encodings (talk.map Prod.snd)).length + 11 * talk.length + 28 := by
      obtain ⟨hbytes, hcount⟩ := length_queues talk
      have hclient := potential_start hN (queue talk .client)
      have hserver := potential_start hN (queue talk .server)
      simp only [potential, start] at hclient hserver ⊢
      simp only [queue, List.filterMap_nil] at hclient hserver hbytes hcount ⊢
      omega
    omega
  · have hlower : ∀ tr c l c' es, (machine N outside).Run (start hN talk) tr c →
        (machine N outside).next c l = some (c', es) → Link.isWake l.step = false →
          potential talk (tr ++ es) c' < potential talk tr c := by
      intro tr c l c' es hrun hnext hwake
      have hle := potential_of_next hN' hlt hrun hnext
      rwa [hwake] at hle
    obtain ⟨ls', c', tr', hwakes, hexec', hended⟩ := Machine.exists_end (potential talk) hlower hrun
    have hrun' := hrun.trans (Machine.RunWhere.of_exec hexec')
    exact ⟨ls', c', tr', hwakes, hexec', hended, fun e => ⟨(hend hrun' hended e).1, (hend hrun' hended e).2.1⟩⟩

/-- A request and its answer: when the client has sent the request, the rest is certain. -/
theorem conversation_ends_request : ∃ ls tr c,
    (machine 16 fun _ => 0).exec (start (by decide) [(.client, ⟨[⟨[7]⟩]⟩), (.server, ⟨[⟨[8]⟩]⟩)]) ls = some (c, tr) ∧
      Link.results (queue tr .client) = [1] ∧ ∃ ls' c' tr', (∀ l ∈ ls', Link.isWake l.step = false) ∧
        (machine 16 fun _ => 0).exec c ls' = some (c', tr') ∧ c'.Ended (fun _ => 0) ∧ ∀ e, c'.turns e = [] ∧
          Link.received (queue (tr ++ tr') e) = queue [(.client, ⟨[⟨[7]⟩]⟩), (.server, ⟨[⟨[8]⟩]⟩)] e := by
  have h : (((machine 16 fun _ => 0).exec (start (by decide) [(.client, ⟨[⟨[7]⟩]⟩), (.server, ⟨[⟨[8]⟩]⟩)])
      (([.send, .send] ++ List.replicate 6 (.queue (.step .sender)) ++ [.send] : List Link.Label).map
        fun l => ⟨.client, l⟩)).any fun r => decide (Link.results (queue r.2 .client) = [1])) = true := by
    decide +kernel
  obtain ⟨⟨c, tr⟩, hexec, hs⟩ := (Option.any_eq_true _ _).1 h
  obtain ⟨-, -, -, hend⟩ := conversation_ends (by decide) (by decide) _ _ (by decide) _ _ _ hexec
  exact ⟨_, tr, c, hexec, of_decide_eq_true hs, hend⟩

end Conversation

end Cppio
