import Cppio.MessageCodec
import Cppio.ReadMessageOutcome

/-!
# The two decoders agree

`Message::readMessage` decodes a buffer in memory, `MessageProtocol::readMessage` the same format from a line.  On a
line that delivers a byte string in any pieces and is then lost, the second does what the first does on the string:
both return the message whose encoding the string starts with, or they fail (`decoders_agree`).

Each read takes some bytes off the line, or finds it lost and ends the call (`drained`); so there are at most as many
reads as bytes, and one more.
-/

namespace Cppio

variable {σ : Type}

/-- A line that delivers the bytes `pending` in any pieces, each of at most `2 ^ 31 - 1` bytes, and is then lost. -/
structure IoLine.DeliversThenLost (line : IoLine σ) (pending : σ → List Byte) : Prop where
  delivers : ∀ n s, 0 < n → pending s ≠ [] → ∃ bytes, (line.read n s).1 = .ok bytes ∧ 1 ≤ bytes.length ∧
    bytes.length ≤ min n (2 ^ 31 - 1) ∧ pending s = bytes ++ pending (line.read n s).2
  lost : ∀ n s, 0 < n → pending s = [] →
    (line.read n s).1 = .error .eConnectionLost ∧ pending (line.read n s).2 = []

theorem IoLine.DeliversThenLost.withinRequest {line : IoLine σ} {pending : σ → List Byte}
    (hline : line.DeliversThenLost pending) : line.WithinRequest := by
  intro n s bytes hn hread
  by_cases hnil : pending s = []
  · rw [(hline.lost n s hn hnil).1] at hread
    cases hread
  · obtain ⟨bytes', hread', -, hmax, -⟩ := hline.delivers n s hn hnil
    rw [hread'] at hread
    cases hread
    omega

namespace MessageProtocol

/-- The reads of a call: what it took off the line and what is left make up the stream, every read but the last takes
some bytes, and a call that meets a failure returns `eConnectionLost` with nothing left. -/
theorem drained {line : IoLine σ} {pending : σ → List Byte} (hline : line.DeliversThenLost pending)
    (p : Reader (Int × Message)) : GivesUp p → ∀ s,
    goodBytes (p.answers line.read s) ++ pending (p.run line.read s).2 = pending s ∧
      (p.answers line.read s).length ≤ (goodBytes (p.answers line.read s)).length + 1 ∧
      (Fails (p.answers line.read s) → pending (p.run line.read s).2 = [] ∧
        (p.run line.read s).1.1 = ErrorCode.eConnectionLost.code) := by
  induction p with
  | done outcome =>
    refine fun _ s => ⟨rfl, Nat.zero_le _, ?_⟩
    rintro ⟨r, hr, -⟩
    cases hr
  | ask n k ih =>
    intro hgives s
    obtain ⟨hpos, hanswer⟩ := hgives
    simp only [Dialogue.answers, Dialogue.run]
    by_cases hnil : pending s = []
    · obtain ⟨hread, hleft⟩ := hline.lost n s hpos hnil
      have hle : toInt32 (ReadResult.value (.error .eConnectionLost)) ≤ 0 := by decide
      obtain ⟨m, hdone⟩ := (hanswer (.error .eConnectionLost)).2 hle
      rw [hread, hdone]
      simp only [Dialogue.answers, Dialogue.run, goodBytes, List.flatMap_cons, List.flatMap_nil,
        if_neg (Int.not_lt.2 hle)]
      exact ⟨by rw [hleft, hnil]; rfl, Nat.le_refl _, fun _ => ⟨hleft, toInt32_code .eConnectionLost⟩⟩
    · obtain ⟨bytes, hread, hmin, hmax, hsplit⟩ := hline.delivers n s hpos hnil
      have hfit : 0 < toInt32 (ReadResult.value (.ok bytes)) := by
        show 0 < toInt32 (bytes.length : Int)
        rw [toInt32_of_lt (by omega)]
        omega
      obtain ⟨hsum, hcount, hfail⟩ := ih (.ok bytes) (hanswer (.ok bytes)).1 (line.read n s).2
      rw [hread]
      have hgood : ∀ rs, goodBytes (.ok bytes :: rs) = bytes ++ goodBytes rs := fun rs => by
        rw [goodBytes, List.flatMap_cons, if_pos hfit, goodBytes]
        rfl
      rw [hgood]
      refine ⟨by rw [List.append_assoc, hsum, ← hsplit], ?_, ?_⟩
      · rw [List.length_cons, List.length_append]
        omega
      · rintro ⟨r, hr, hle⟩
        rcases List.mem_cons.1 hr with rfl | hr
        · omega
        · exact hfail ⟨r, hr, hle⟩

/-- A byte string that starts with the encoding of a message is decoded to it. -/
private theorem readMessage_of_isPrefix {s : List Byte} (hmax : s.length < 2 ^ 63) {memory : Memory}
    (hmemory : memory.bytes 0 s.length = s) {m : Message} (hm : m.Encodable) (hfirst : m.writeMessage <+: s) :
    Message.readMessage memory s.length = .ok m := by
  obtain ⟨rest, hrest⟩ := hfirst
  have hle : m.messageSize ≤ s.length := by
    rw [← hrest, List.length_append, Message.length_writeMessage]
    omega
  refine Message.readMessage_of_bytes hm hmax hle ?_
  have h := hmemory.trans hrest.symm
  rw [← Message.length_writeMessage]
  exact (Memory.bytes_eq_append h).1

/-- On a line that delivers the string `s` in any pieces and is then lost, `MessageProtocol::readMessage` makes at
most `|s| + 1` reads and returns 1 with a message just when `Message::readMessage` decodes `s` to it, after it has
taken exactly the encoding of the message; it returns `eConnectionLost` just when `Message::readMessage` throws.  (No
byte string in memory has `2 ^ 63` bytes or more: lengths are differences of pointers.) -/
theorem decoders_agree (s : List Byte) (hmin : 4 ≤ s.length) (hmax : s.length < 2 ^ 63) (line : IoLine σ)
    (pending : σ → List Byte) (hline : line.DeliversThenLost pending) (st : σ) (hst : pending st = s)
    (memory : Memory) (hmemory : memory.bytes 0 s.length = s) :
    ((readMessage .empty).answers line.read st).length ≤ s.length + 1 ∧
    (∀ m, ((readMessage .empty).run line.read st).1 = (1, m) ↔ Message.readMessage memory s.length = .ok m) ∧
    (∀ m, ((readMessage .empty).run line.read st).1 = (1, m) → m.messageSize ≤ s.length ∧
      pending ((readMessage .empty).run line.read st).2 = s.drop m.messageSize) ∧
    (((readMessage .empty).run line.read st).1.1 = ErrorCode.eConnectionLost.code ↔
      ∃ e : LengthError, Message.readMessage memory s.length = .error e) := by
  obtain ⟨hsum, hcount, hfail⟩ := drained hline (readMessage .empty) (givesUp_readMessage _) st
  rw [hst] at hsum
  have hreads : ((readMessage .empty).answers line.read st).length ≤ s.length + 1 := by
    have hlen := congrArg List.length hsum
    rw [List.length_append] at hlen
    omega
  refine ⟨hreads, ?_⟩
  rcases readMessage_outcome hline.withinRequest st with ⟨m, hm, hrun, hbytes⟩ | ⟨hle, hfails, hnone, -⟩
  · rw [hbytes] at hsum
    have hdecode := readMessage_of_isPrefix hmax hmemory hm ⟨_, hsum⟩
    have hsize : m.messageSize ≤ s.length := by
      rw [← hsum, List.length_append, Message.length_writeMessage]
      omega
    refine ⟨fun m' => ?_, fun m' h => ?_, fun h => ?_, fun ⟨e, he⟩ => ?_⟩
    · rw [hrun, hdecode]
      exact ⟨fun h => congrArg Except.ok (congrArg Prod.snd h), fun h => by rw [Except.ok.inj h]⟩
    · rw [hrun] at h
      have hm' : m = m' := congrArg Prod.snd h
      subst hm'
      refine ⟨hsize, ?_⟩
      rw [← hsum, ← Message.length_writeMessage, List.drop_left]
    · rw [hrun] at h
      exact absurd h (by decide : ¬ (1 : Int) = ErrorCode.eConnectionLost.code)
    · rw [hdecode] at he
      cases he
  · obtain ⟨hleft, hlost⟩ := hfail hfails
    rw [hleft, List.append_nil] at hsum
    rw [hsum] at hnone
    -- the line has delivered all of the string, so a message in the buffer would be in the good results
    have hnever : ∀ m, Message.readMessage memory s.length ≠ .ok m := by
      intro m h
      obtain ⟨hm, hle, hbytes⟩ := Message.bytes_of_readMessage hmax hmin h
      refine hnone ⟨m, hm, ?_⟩
      rw [← hbytes, ← hmemory]
      exact Memory.bytes_isPrefix memory 0 hle
    have hne : ∀ m, ((readMessage .empty).run line.read st).1 ≠ (1, m) := by
      intro m h
      rw [h] at hle
      exact absurd hle (by decide : ¬ (1 : Int) ≤ 0)
    refine ⟨fun m => ⟨fun h => absurd h (hne m), fun h => absurd h (hnever m)⟩, fun m h => absurd h (hne m), ?_⟩
    refine ⟨fun _ => ?_, fun _ => hlost⟩
    cases h : Message.readMessage memory s.length with
    | ok m => exact absurd h (hnever m)
    | error e => exact ⟨e, rfl⟩

/-- A line that delivers a list of bytes one by one and is then lost. -/
def byteByByte : IoLine (List Byte) where
  read
    | _, [] => (.error .eConnectionLost, [])
    | _, b :: rest => (.ok [b], rest)
  write bytes s := (bytes.length, s)

theorem byteByByte_deliversThenLost : byteByByte.DeliversThenLost id where
  delivers n s hn hs := by
    obtain ⟨b, rest, rfl⟩ := List.exists_cons_of_ne_nil hs
    exact ⟨[b], rfl, Nat.le_refl 1, by rw [List.length_singleton]; omega, rfl⟩
  lost n s _ hs := by
    cases (show s = [] from hs)
    exact ⟨rfl, rfl⟩

/-- A string of one frame and one byte more: both decoders return the frame, and the line keeps the last byte. -/
theorem decoders_agree_one :
    ((readMessage .empty).run byteByByte.read [1, 0, 0, 0, 1, 0, 0, 0, 7, 9]).1 = (1, ⟨[⟨[7]⟩]⟩) ∧
      ((readMessage .empty).run byteByByte.read [1, 0, 0, 0, 1, 0, 0, 0, 7, 9]).2 = [9] := by
  have h : ((readMessage .empty).run byteByByte.read [1, 0, 0, 0, 1, 0, 0, 0, 7, 9]).1 = (1, ⟨[⟨[7]⟩]⟩) := by
    decide +kernel
  refine ⟨h, ?_⟩
  have hagree := decoders_agree [1, 0, 0, 0, 1, 0, 0, 0, 7, 9] (by decide) (by decide) byteByByte id
    byteByByte_deliversThenLost [1, 0, 0, 0, 1, 0, 0, 0, 7, 9] rfl ([1, 0, 0, 0, 1, 0, 0, 0, 7, 9].getD · 0)
    (by decide)
  exact (hagree.2.2.1 _ h).2

end MessageProtocol

end Cppio
