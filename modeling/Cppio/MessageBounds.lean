import Cppio.Lib.Probe
import Cppio.MessageCodec

/-!
# What reading a buffer examines

`Message.readMessage` checks the end of the buffer in one place only: after it has read the length word of a frame,
before it takes the bytes of the frame.  The number of frames is read unchecked, and so is every length word.

`probeMessage` is `readMessage` with its loads made visible.  It stays inside the buffer just when the buffer holds
the number of frames and does not end before the end of a length word it announces (`staysInside_iff`); otherwise
it examines what lies behind (`not_staysInside`).
-/

namespace Cppio

namespace Message

/-- The loop of `Message::readMessage`, with its loads from the buffer. -/
def probeFrames (bufferLength : Nat) : Nat → Nat → Message → Probe Byte (Except LengthError Message)
  | 0, _, msg => .done (.ok msg)
  | frames + 1, current, msg =>
    .load current 4 fun word =>
      let currentFrameLength := wordValue word
      let current := current + 4
      if ((current + currentFrameLength : Nat) : Int) > toSsize bufferLength then
        .done (.error ⟨"Unable to construct Message: end of buffer"⟩)
      else
        .load current currentFrameLength fun data =>
          probeFrames bufferLength frames (current + currentFrameLength) (msg.addFrame ⟨data⟩)

/-- `Message::readMessage`, with its loads from the buffer. -/
def probeMessage (bufferLength : Nat) : Probe Byte (Except LengthError Message) :=
  .load 0 4 fun word => probeFrames bufferLength (wordValue word) 4 empty

/-- One round of the loop, with its length word read. -/
private theorem probeFrames_succ (bufferLength n current : Nat) (msg : Message) :
    probeFrames bufferLength (n + 1) current msg =
    .load current 4 fun word => if ((current + 4 + wordValue word : Nat) : Int) > toSsize bufferLength then
      .done (.error ⟨"Unable to construct Message: end of buffer"⟩)
    else .load (current + 4) (wordValue word) fun data =>
      probeFrames bufferLength n (current + 4 + wordValue word) (msg.addFrame ⟨data⟩) := rfl

private theorem run_probeFrames (memory : Memory) (bufferLength : Nat) (n : Nat) : ∀ (current : Nat) (msg : Message),
    (probeFrames bufferLength n current msg).run memory = readFrames memory bufferLength n current msg := by
  induction n with
  | zero => exact fun _ _ => rfl
  | succ n ih =>
    intro current msg
    rw [probeFrames_succ, Probe.run, readFrames]
    change Probe.run memory (if ((current + 4 + memory.word current : Nat) : Int) > _ then _ else _) = _
    by_cases hend : ((current + 4 + memory.word current : Nat) : Int) > toSsize bufferLength
    · rw [if_pos hend, if_pos hend, Probe.run]
    · rw [if_neg hend, if_neg hend, Probe.run, ih]
      rfl

theorem run_probeMessage (memory : Memory) (bufferLength : Nat) :
    (probeMessage bufferLength).run memory = readMessage memory bufferLength :=
  run_probeFrames memory bufferLength _ 4 empty

/-- The offsets of the bytes that `readMessage` examines. -/
def examined (memory : Memory) (bufferLength : Nat) : List Nat := (probeMessage bufferLength).examined memory

/-! ### The end of the buffer -/

/-- The length word or the body of an announced frame does not end inside the buffer. -/
def FrameCut (memory : Memory) (bufferLength : Nat) : Nat → Nat → Prop
  | 0, _ => False
  | frames + 1, current =>
    bufferLength < current + 4 ∨ bufferLength < current + 4 + memory.word current ∨
      FrameCut memory bufferLength frames (current + 4 + memory.word current)

/-- The buffer is too short for the number of frames, or for an announced frame. -/
def TooShort (memory : Memory) (bufferLength : Nat) : Prop :=
  bufferLength < 4 ∨ FrameCut memory bufferLength (memory.word 0) 4

/-- An announced length word, behind frames that lie inside the buffer, does not. -/
def LengthWordCut (memory : Memory) (bufferLength : Nat) : Nat → Nat → Prop
  | 0, _ => False
  | frames + 1, current =>
    bufferLength < current + 4 ∨ (current + 4 + memory.word current ≤ bufferLength ∧
      LengthWordCut memory bufferLength frames (current + 4 + memory.word current))

instance decidableLengthWordCut (memory : Memory) (bufferLength : Nat) :
    ∀ frames current, Decidable (LengthWordCut memory bufferLength frames current)
  | 0, _ => isFalse id
  | frames + 1, current =>
    have := decidableLengthWordCut memory bufferLength frames (current + 4 + memory.word current)
    inferInstanceAs (Decidable (_ ∨ (_ ∧ _)))

/-- Reading a buffer does not depend on what lies behind it, and refuses a buffer that is too short. -/
structure StaysInside (memory : Memory) (bufferLength : Nat) : Prop where
  inside : ∀ i ∈ examined memory bufferLength, i < bufferLength
  determined : ∀ memory' : Memory, (∀ i, i < bufferLength → memory' i = memory i) →
    readMessage memory' bufferLength = readMessage memory bufferLength
  short : TooShort memory bufferLength → ∃ e : LengthError, readMessage memory bufferLength = .error e

private theorem examined_succ (memory : Memory) (bufferLength n current : Nat) (msg : Message) :
    (probeFrames bufferLength (n + 1) current msg).examined memory = (List.range 4).map (current + ·) ++
      if ((current + 4 + memory.word current : Nat) : Int) > toSsize bufferLength then []
      else (List.range (memory.word current)).map (current + 4 + ·) ++
        (probeFrames bufferLength n (current + 4 + memory.word current)
          (msg.addFrame ⟨memory.bytes (current + 4) (memory.word current)⟩)).examined memory := by
  rw [probeFrames_succ, Probe.examined]
  change _ ++ Probe.examined memory (if ((current + 4 + memory.word current : Nat) : Int) > _ then _ else _) = _
  by_cases hend : ((current + 4 + memory.word current : Nat) : Int) > toSsize bufferLength
  · rw [if_pos hend, if_pos hend, Probe.examined]
  · rw [if_neg hend, if_neg hend, Probe.examined]
    rfl

private theorem mem_range_map {i n j : Nat} : j ∈ (List.range n).map (i + ·) ↔ i ≤ j ∧ j < i + n := by
  simp only [List.mem_map, List.mem_range]
  constructor
  · rintro ⟨k, hk, rfl⟩
    omega
  · rintro ⟨hge, hlt⟩
    exact ⟨j - i, by omega, by omega⟩

/-- A length word that is cut off is examined all the same. -/
private theorem exists_examined {memory : Memory} {bufferLength : Nat} (hlen : bufferLength < 2 ^ 63) (n : Nat) :
    ∀ (current : Nat) (msg : Message), LengthWordCut memory bufferLength n current →
      ∃ i ∈ (probeFrames bufferLength n current msg).examined memory, bufferLength ≤ i := by
  induction n with
  | zero => exact fun _ _ h => h.elim
  | succ n ih =>
    intro current msg h
    rw [examined_succ]
    rcases h with hcut | ⟨hfits, hlater⟩
    · exact ⟨current + 3, List.mem_append_left _ (mem_range_map.2 ⟨by omega, by omega⟩), by omega⟩
    · rw [toSsize_of_lt hlen, if_neg (by omega)]
      obtain ⟨i, hi, hle⟩ := ih _ (msg.addFrame ⟨memory.bytes (current + 4) (memory.word current)⟩) hlater
      exact ⟨i, List.mem_append_right _ (List.mem_append_right _ hi), hle⟩

private theorem examined_lt {memory : Memory} {bufferLength : Nat} (hlen : bufferLength < 2 ^ 63) (n : Nat) :
    ∀ (current : Nat) (msg : Message), ¬ LengthWordCut memory bufferLength n current →
      ∀ i ∈ (probeFrames bufferLength n current msg).examined memory, i < bufferLength := by
  induction n with
  | zero => exact fun _ _ _ _ hi => absurd hi List.not_mem_nil
  | succ n ih =>
    intro current msg h i hi
    rw [LengthWordCut, not_or, not_and] at h
    obtain ⟨hword, hlater⟩ := h
    rw [examined_succ, toSsize_of_lt hlen] at hi
    rcases List.mem_append.1 hi with hi | hi
    · have := mem_range_map.1 hi
      omega
    · split at hi
      · cases hi
      · rename_i hfits
        rcases List.mem_append.1 hi with hi | hi
        · have := mem_range_map.1 hi
          omega
        · exact ih _ _ (hlater (by omega)) i hi

/-- An announced frame that is cut off is refused. -/
private theorem readFrames_of_frameCut {memory : Memory} {bufferLength : Nat} (hlen : bufferLength < 2 ^ 63)
    (n : Nat) : ∀ (current : Nat) (msg : Message), FrameCut memory bufferLength n current →
      ∃ e : LengthError, readFrames memory bufferLength n current msg = .error e := by
  induction n with
  | zero => exact fun _ _ h => h.elim
  | succ n ih =>
    intro current msg h
    simp only [readFrames, toSsize_of_lt hlen]
    split
    · exact ⟨_, rfl⟩
    · rename_i hfits
      rcases h with hcut | hcut | hlater
      · omega
      · omega
      · exact ih _ _ hlater

/-- A length that is negative as an `ssize_t` is refused at the first frame. -/
private theorem toSsize_neg {n : Nat} (h : 2 ^ 63 ≤ n) (hn : n < 2 ^ 64) : toSsize n < 0 := by
  unfold toSsize
  rw [Int.bmod_def]
  split <;> omega

/-- Reading stays inside a buffer just when the buffer holds the number of frames and no announced length word is cut
off by its end; a length that is negative as an `ssize_t` is refused before that matters. -/
theorem staysInside_iff (memory : Memory) (bufferLength : Nat) (hsize : bufferLength < 2 ^ 64) :
    StaysInside memory bufferLength ↔ 4 ≤ bufferLength ∧
      (bufferLength < 2 ^ 63 → ¬ LengthWordCut memory bufferLength (memory.word 0) 4) := by
  have hexamined : examined memory bufferLength = (List.range 4).map (0 + ·) ++
      (probeFrames bufferLength (memory.word 0) 4 empty).examined memory := rfl
  constructor
  · intro h
    refine ⟨?_, fun hlen hcut => ?_⟩
    · have h3 : 3 ∈ examined memory bufferLength := by
        rw [hexamined]
        exact List.mem_append_left _ (mem_range_map.2 ⟨by omega, by omega⟩)
      exact h.inside 3 h3
    · obtain ⟨i, hi, hle⟩ := exists_examined hlen _ 4 empty hcut
      have := h.inside i (hexamined ▸ List.mem_append_right _ hi)
      omega
  · rintro ⟨hmin, hwords⟩
    have hinside : ∀ i ∈ examined memory bufferLength, i < bufferLength := by
      intro i hi
      rw [hexamined] at hi
      rcases List.mem_append.1 hi with hi | hi
      · have := mem_range_map.1 hi
        omega
      · rcases Nat.lt_or_ge bufferLength (2 ^ 63) with hlen | hlen
        · exact examined_lt hlen _ _ _ (hwords hlen) i hi
        · -- the first frame is refused, so only its length word is examined
          cases hn : memory.word 0 with
          | zero =>
            rw [hn] at hi
            cases hi
          | succ n =>
            have hneg := toSsize_neg hlen hsize
            rw [hn, examined_succ, if_pos (by omega), List.append_nil] at hi
            have := mem_range_map.1 hi
            omega
    refine ⟨hinside, fun memory' hagree => ?_, fun hshort => ?_⟩
    · -- a run depends on the bytes it examines only, and these are in the buffer
      rw [← run_probeMessage, ← run_probeMessage]
      exact Probe.run_congr _ fun i hi => hagree i (hinside i hi)
    · rcases hshort with hcount | hcut
      · omega
      · rcases Nat.lt_or_ge bufferLength (2 ^ 63) with hlen | hlen
        · exact readFrames_of_frameCut hlen _ _ _ hcut
        · rw [readMessage]
          cases hn : memory.word 0 with
          | zero =>
            rw [hn] at hcut
            exact hcut.elim
          | succ n =>
            have hneg := toSsize_neg hlen hsize
            simp only [readFrames]
            rw [if_pos (by omega)]
            exact ⟨_, rfl⟩

/-- A buffer of one frame of one byte, and nothing behind it. -/
theorem staysInside_iff_frame : StaysInside (fun i => ([1, 0, 0, 0, 1, 0, 0, 0, 7] : List Byte).getD i 0) 9 :=
  (staysInside_iff _ 9 (by decide)).2 ⟨by decide, fun _ => by decide⟩

/-- A buffer that announces a frame and ends: the length word is read from behind the buffer. -/
theorem not_staysInside : ¬ ∀ (memory : Memory) (bufferLength : Nat), bufferLength < 2 ^ 64 →
    StaysInside memory bufferLength := by
  intro hall
  have h := (hall (fun i => ([1, 0, 0, 0] : List Byte).getD i 0) 4 (by decide)).inside 4 (by decide)
  omega

end Message

end Cppio
