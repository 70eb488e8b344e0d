import Cppio.MessageProtocol

/-!
# Receiving messages

`readMessage` takes exactly the encoding of a message off the stream, in whatever pieces the line returns it
(`reads_writeMessage`), and gives up at the first read that returns no bytes (`givesUp_readMessage`).
-/

namespace Cppio

/-- A read's bytes whose number is positive also as an `int`. -/
def FitsInt (bytes : List Byte) : Prop := 0 < toInt32 bytes.length

theorem fitsInt_of_lt {bytes : List Byte} (hne : bytes ≠ []) (hlt : bytes.length < 2 ^ 31) : FitsInt bytes := by
  rw [FitsInt, toInt32_of_lt hlt]
  exact Int.natCast_pos.2 (List.length_pos_iff.2 hne)

/-- The call takes exactly these bytes off the line, in any pieces that fit an `int`, and has this outcome. -/
abbrev Takes (p : Reader (Int × Message)) (bytes : List Byte) (outcome : Int × Message) : Prop :=
  p.Reads Except.ok FitsInt bytes outcome

/-- The loop over partial reads hands on the `len` bytes it waits for, however they were cut. -/
theorem takes_readLoop {len : Nat} {K : Except Int (List Byte) → Reader (Int × Message)} {bytes rest : List Byte}
    {outcome : Int × Message} (hlen : bytes.length = len) (h : Takes (K (.ok bytes)) rest outcome) :
    Takes ((readLoop len []).bind K) (bytes ++ rest) outcome := by
  refine Dialogue.Reads.gather (fun got hlt => ?_) (fun got heq => ?_) hlen h
    (p := fun got => (readLoop len got).bind K) (K := fun got => K (.ok got))
  · rw [readLoop, if_pos hlt]
    refine ⟨_, rfl, fun ys _ _ hfit => ?_⟩
    have hpos : 0 < toInt32 (ReadResult.value (.ok ys)) := hfit
    simp only [if_pos hpos, ReadResult.bytes]
  · rw [readLoop, if_neg (by omega)]
    rfl

namespace MessageProtocol

theorem takes_readFrames (fs : List Frame) (hfs : ∀ f ∈ fs, f.size < 2 ^ 32) : ∀ m : Message,
    Takes (readFrames fs.length m) (fs.flatMap Frame.encoded) (1, ⟨m.frames ++ fs⟩) := by
  induction fs with
  | nil => exact fun m => ⟨rfl, by rw [List.append_nil]⟩
  | cons f fs ih =>
    intro m
    rw [List.flatMap_cons, Frame.encoded, List.append_assoc, List.length_cons, readFrames]
    have hword : wordValue (littleEndian 4 f.size) = f.size :=
      wordValue_littleEndian_of_lt (hfs f (List.mem_cons_self ..))
    refine takes_readLoop (length_littleEndian 4 _) (takes_readLoop hword.symm ?_)
    have h := ih (fun g hg => hfs g (List.mem_cons_of_mem _ hg)) (m.addFrame ⟨f.data⟩)
    rwa [Message.addFrame, List.append_assoc] at h

/-- Into an empty message `readMessage` reads exactly the encoding of a message, and returns 1 with its frames. -/
theorem reads_writeMessage {m : Message} (hm : m.Encodable) :
    Takes (readMessage .empty) m.writeMessage (1, m) := by
  have hword : wordValue (littleEndian 4 m.frames.length) = m.frames.length := wordValue_littleEndian_of_lt hm.1
  refine takes_readLoop (length_littleEndian 4 _) ?_
  simp only [hword]
  exact takes_readFrames m.frames hm.2 .empty

/-! ### Giving up -/

/-- Every read asks for some bytes, and a result that is not positive is returned at once. -/
def GivesUp : Reader (Int × Message) → Prop
  | .done _ => True
  | .ask n k => 0 < n ∧ ∀ r, GivesUp (k r) ∧ (toInt32 r.value ≤ 0 → ∃ m, k r = .done (toInt32 r.value, m))

theorem givesUp_readLoop (len : Nat) {K : Except Int (List Byte) → Reader (Int × Message)}
    (herr : ∀ result, ∃ m, K (.error result) = .done (result, m)) (hok : ∀ bytes, GivesUp (K (.ok bytes)))
    (got : List Byte) : GivesUp ((readLoop len got).bind K) := by
  induction got using readLoop.induct len with
  | case1 got hlt ih =>
    rw [readLoop, if_pos hlt]
    refine ⟨Nat.sub_pos_of_lt hlt, fun r => ⟨?_, fun hle => ?_⟩⟩
    · simp only
      split
      · exact ih r ‹_›
      · obtain ⟨m, hm⟩ := herr (toInt32 r.value)
        rw [Dialogue.bind, hm]
        trivial
    · simp only [if_neg (Int.not_lt.2 hle)]
      exact herr _
  | case2 got hge =>
    rw [readLoop, if_neg hge]
    exact hok got

theorem givesUp_readFrames (frames : Nat) : ∀ m, GivesUp (readFrames frames m) := by
  induction frames with
  | zero => exact fun _ => trivial
  | succ frames ih =>
    refine fun m => givesUp_readLoop 4 (fun result => ⟨m, rfl⟩) (fun frameLength => ?_) []
    exact givesUp_readLoop _ (fun result => ⟨m, rfl⟩) (fun data => ih _) []

/-- `readMessage` returns the first result of the line that is not positive. -/
theorem givesUp_readMessage (m : Message) : GivesUp (readMessage m) :=
  givesUp_readLoop 4 (fun _ => ⟨m, rfl⟩) (fun _ => givesUp_readFrames _ m) []

end MessageProtocol

end Cppio
