import Cppio.Lib.Transition
import Cppio.ReadMessage

/-!
# Timeouts while receiving

A program that calls `readMessage` with a fresh message again and again, also after a timeout.  A timeout in the
middle of a message makes `readMessage` return and forget the bytes it has taken off the line, so the next call takes
the rest of the message for the start of one.  When timeouts strike only between messages the framing is kept
(`framing_kept`): the call in progress always waits for exactly the bytes that are left of the next message.
-/

namespace Cppio

/-- A receiver and the stream it reads. -/
structure Receiver where
  /-- The call of `readMessage` in progress; none after a call that neither succeeded nor timed out. -/
  current : Option (Reader (Int × Message))
  /-- The bytes this call has taken off the line. -/
  taken : List Byte
  /-- The bytes of the stream not yet read. -/
  pending : List Byte

/-- What the line does with a read. -/
inductive LineRead where
  | part (n : Nat)
  | timeout
deriving DecidableEq, Repr

namespace Receiver

open MessageProtocol

def start (stream : List Byte) : Receiver := { current := some (readMessage .empty), taken := [], pending := stream }

/-- The call goes on as `p`; when it is over and a further one is in order, that one begins. -/
def goOn (taken pending : List Byte) : Reader (Int × Message) → Receiver × List (Int × Message)
  | .done (result, m) =>
    let again := result = 1 ∨ result = ErrorCode.eTimeout.code
    (⟨if again then some (readMessage .empty) else none, [], pending⟩, [(result, m)])
  | .ask n k => (⟨some (.ask n k), taken, pending⟩, [])

/-- The line returns any positive part of what it is asked for, or `eTimeout`; the events are the outcomes of the
calls. -/
def machine : Machine Receiver LineRead (Int × Message) where
  next rv read :=
    match rv.current, read with
    | some (.ask n k), .part j =>
      if 0 < j ∧ j ≤ n ∧ j ≤ rv.pending.length then
        let bytes := rv.pending.take j
        some (goOn (rv.taken ++ bytes) (rv.pending.drop j) (k (.ok bytes)))
      else none
    | some (.ask _ k), .timeout => some (goOn rv.taken rv.pending (k (.error .eTimeout)))
    | _, _ => none

/-- The messages of the calls that returned 1. -/
def received (outcomes : List (Int × Message)) : List Message :=
  outcomes.filterMap fun outcome => if outcome.1 = 1 then some outcome.2 else none

theorem received_of_ne {result : Int} {m : Message} (h : result ≠ 1) : received [(result, m)] = [] :=
  List.filterMap_cons_none (if_neg h)

theorem received_append (outcomes outcomes' : List (Int × Message)) :
    received (outcomes ++ outcomes') = received outcomes ++ received outcomes' :=
  List.filterMap_append ..

/-- A timeout strikes only when the call has taken nothing off the line, and no number of bytes becomes the code of a
timeout in the `int` it is stored in. -/
def BetweenMessages (rv : Receiver) : LineRead → Prop
  | .part j => toInt32 j ≠ ErrorCode.eTimeout.code
  | .timeout => rv.taken = []

instance (rv : Receiver) (read : LineRead) : Decidable (rv.BetweenMessages read) :=
  match read with
  | .part j => inferInstanceAs (Decidable (toInt32 j ≠ ErrorCode.eTimeout.code))
  | .timeout => inferInstanceAs (Decidable (rv.taken = []))

/-! ### The framing invariant -/

/-- The call `p` waits for the rest of the first message to come, with the other messages behind it. -/
def Awaits (p : Reader (Int × Message)) (pending : List Byte) : List Message → Prop
  | [] => pending = []
  | m :: later => ∃ rest, Takes p rest (1, m) ∧ pending = rest ++ encodings later

theorem awaits_fresh {todo : List Message} (h : ∀ m ∈ todo, m.Encodable) :
    Awaits (readMessage .empty) (encodings todo) todo := by
  cases todo with
  | nil => rfl
  | cons m later => exact ⟨m.writeMessage, reads_writeMessage (h m (List.mem_cons_self ..)), rfl⟩

/-- What holds of a receiver that has still to receive `todo`, unless it has stopped. -/
structure InFrame (todo : List Message) (p : Reader (Int × Message)) (taken pending : List Byte) : Prop where
  awaits : Awaits p pending todo
  givesUp : GivesUp p
  fresh : taken = [] → p = readMessage .empty

theorem inFrame_fresh {todo : List Message} {pending : List Byte} (h : Awaits (readMessage .empty) pending todo) :
    InFrame todo (readMessage .empty) [] pending :=
  ⟨h, givesUp_readMessage _, fun _ => rfl⟩

/-- The invariant of a receiver. -/
def Inv (todo : List Message) (rv : Receiver) : Prop :=
  ∀ p, rv.current = some p → InFrame todo p rv.taken rv.pending

private theorem inv_stopped {todo : List Message} {taken pending : List Byte} :
    Inv todo ⟨none, taken, pending⟩ := by
  intro p hp
  cases hp

private theorem inv_some {todo : List Message} {p : Reader (Int × Message)} {taken pending : List Byte}
    (h : InFrame todo p taken pending) : Inv todo ⟨some p, taken, pending⟩ := by
  intro q hq
  cases hq
  exact h

/-- After a call took some bytes, the receiver has received the next message, or waits for the rest of it. -/
private theorem inv_goOn {m : Message} {later : List Message} {p : Reader (Int × Message)}
    {taken rest : List Byte} (hlater : ∀ m ∈ later, m.Encodable) (htakes : Takes p rest (1, m)) (hgives : GivesUp p)
    (htaken : taken ≠ []) :
    ∃ todo, Inv todo (goOn taken (rest ++ encodings later) p).1 ∧
      m :: later = received (goOn taken (rest ++ encodings later) p).2 ++ todo := by
  cases p with
  | done outcome =>
    obtain ⟨rfl, rfl⟩ := htakes
    exact ⟨later, inv_some (inFrame_fresh (awaits_fresh hlater)), rfl⟩
  | ask n k => exact ⟨m :: later, inv_some ⟨⟨rest, htakes, rfl⟩, hgives, fun h => absurd h htaken⟩, rfl⟩

/-- A step keeps the invariant, and what it receives is the next of the messages to come. -/
theorem inv_step {todo : List Message} {rv rv' : Receiver} {read : LineRead} {outcomes : List (Int × Message)}
    (htodo : ∀ m ∈ todo, m.Encodable) (hinv : Inv todo rv) (hbetween : rv.BetweenMessages read)
    (hstep : machine.next rv read = some (rv', outcomes)) :
    ∃ todo', Inv todo' rv' ∧ todo = received outcomes ++ todo' := by
  obtain ⟨current, taken, pending⟩ := rv
  rcases current with _ | _ | ⟨n, k⟩
  · cases hstep
  · cases hstep
  have hframe := hinv _ rfl
  cases read with
  | timeout =>
    have hcode : toInt32 (ReadResult.value (.error .eTimeout)) = ErrorCode.eTimeout.code :=
      toInt32_code .eTimeout
    obtain ⟨m, hm⟩ := (hframe.givesUp.2 (.error .eTimeout)).2 (by rw [hcode]; decide)
    rw [hcode] at hm
    simp only [machine, hm, goOn, or_true, if_true, Option.some.injEq, Prod.mk.injEq] at hstep
    obtain ⟨rfl, rfl⟩ := hstep
    have hfresh := hframe.fresh hbetween
    rw [hfresh] at hframe
    exact ⟨todo, inv_some (inFrame_fresh hframe.awaits), rfl⟩
  | part j =>
    simp only [machine, Option.ite_none_right_eq_some, Option.some.injEq] at hstep
    obtain ⟨⟨hpos, hjn, hjlen⟩, hstep⟩ := hstep
    have hlen : (pending.take j).length = j := by rw [List.length_take, Nat.min_eq_left hjlen]
    have hne : pending.take j ≠ [] := List.length_pos_iff.1 (by omega)
    cases todo with
    | nil =>
      have hempty : pending = [] := hframe.awaits
      rw [hempty] at hjlen
      exact absurd hjlen (Nat.not_le.2 hpos)
    | cons m later =>
      obtain ⟨rest, htakes, hpending⟩ := hframe.awaits
      obtain ⟨hgives, hstop⟩ := hframe.givesUp.2 (.ok (pending.take j))
      rw [ReadResult.value, hlen] at hstop
      by_cases hfit : 0 < toInt32 j
      · -- the bytes belong to the message in progress, as no more is asked for than is left of it
        have hle := htakes.ask_le
        simp only at hpending
        rw [hpending, List.take_append_of_le_length (by omega)] at hne hlen hgives hstep
        rw [List.drop_append_of_le_length (by omega)] at hstep
        rw [← List.take_append_drop j rest] at htakes
        have htakes' := htakes.next hne (by omega) (show 0 < toInt32 _ by rwa [hlen])
        have h := inv_goOn (fun m hm => htodo m (List.mem_cons_of_mem _ hm)) htakes' hgives
          (List.append_ne_nil_of_right_ne_nil taken hne)
        rwa [hstep] at h
      · -- the number of bytes is negative as an `int`: the call returns it, and the receiver stops
        obtain ⟨m', hm'⟩ := hstop (Int.not_lt.1 hfit)
        have hone : ¬ toInt32 j = 1 := by omega
        have hcode : ¬ toInt32 j = ErrorCode.eTimeout.code := hbetween
        simp only [hm', goOn, hone, hcode, or_self, if_false, Prod.mk.injEq] at hstep
        obtain ⟨rfl, rfl⟩ := hstep
        refine ⟨m :: later, inv_stopped, ?_⟩
        rw [received_of_ne hone]
        rfl

/-- When timeouts strike only between messages, the messages received are, in order, the first of those sent. -/
theorem framing_kept (ms : List Message) (hms : ∀ m ∈ ms, m.Encodable) (outcomes : List (Int × Message))
    (rv : Receiver) (hrun : machine.RunWhere BetweenMessages (start (encodings ms)) outcomes rv) :
    received outcomes <+: ms := by
  have hinv : ∃ todo, ms = received outcomes ++ todo ∧ Inv todo rv := by
    refine hrun.invariant (fun outcomes rv => ∃ todo, ms = received outcomes ++ todo ∧ Inv todo rv) ?_ ?_
    · exact ⟨ms, rfl, inv_some (inFrame_fresh (awaits_fresh hms))⟩
    · rintro tr s read s' es ⟨todo, rfl, hinv⟩ hok hstep
      obtain ⟨todo', hinv', rfl⟩ := inv_step (fun m hm => hms m (List.mem_append_right _ hm)) hinv hok hstep
      exact ⟨todo', by rw [received_append, List.append_assoc], hinv'⟩
  obtain ⟨todo, rfl, -⟩ := hinv
  exact List.prefix_append _ _

/-- A timeout before a message that comes in two pieces. -/
theorem framing_kept_idle : ∃ outcomes rv,
    machine.RunWhere BetweenMessages (start (encodings [⟨[⟨[7]⟩]⟩])) outcomes rv ∧
      outcomes = [(-1, ⟨[]⟩), (1, ⟨[⟨[7]⟩]⟩)] ∧ received outcomes <+: [⟨[⟨[7]⟩]⟩] := by
  have h : (((machine.restrict BetweenMessages).exec (start (encodings [⟨[⟨[7]⟩]⟩]))
      [.timeout, .part 3, .part 1, .part 4, .part 1]).map fun r => r.2) =
        some [(-1, ⟨[]⟩), (1, ⟨[⟨[7]⟩]⟩)] := by decide +kernel
  obtain ⟨⟨rv, outcomes⟩, hexec, rfl⟩ := Option.map_eq_some_iff.1 h
  have hrun := Machine.RunWhere.of_restrict (Machine.RunWhere.of_exec hexec)
  exact ⟨_, rv, hrun, rfl, framing_kept [⟨[⟨[7]⟩]⟩] (by decide) _ rv hrun⟩

/-- A timeout after the number of frames: the next call takes the length of the empty frame for the number of frames
of a message, and returns 1 with a message that was never sent. -/
theorem framing_lost : ¬ ∀ (ms : List Message) (outcomes : List (Int × Message)) (rv : Receiver),
    machine.Run (start (encodings ms)) outcomes rv → received outcomes <+: ms := by
  intro hall
  have h : ((machine.exec (start (encodings [⟨[⟨[]⟩]⟩])) [.part 4, .timeout, .part 4]).map fun r => r.2) =
      some [(-1, ⟨[]⟩), (1, ⟨[]⟩)] := by decide +kernel
  obtain ⟨⟨rv, outcomes⟩, hexec, rfl⟩ := Option.map_eq_some_iff.1 h
  exact absurd (hall [⟨[⟨[]⟩]⟩] _ rv (Machine.RunWhere.of_exec hexec)) (by decide)

end Receiver

end Cppio
