import Cppio.Lib.LittleEndian
import Cppio.Types

/-!
# Messages and the buffer codec

`Frame` and `Message` of `src/message.cpp`.  An encoded message is the number of its frames and then, for each frame,
its length and its bytes; the numbers are 32-bit little-endian words, so the code cuts larger numbers to 32 bits.

`Message.readMessage` reads a buffer in memory.  The memory is total: what lies past the buffer can be anything, and
the code does examine it.  Pointers are offsets from the start of the buffer, and differences of pointers are exact.
-/

namespace Cppio

structure Frame where
  data : List Byte
deriving DecidableEq, Repr

namespace Frame

def size (f : Frame) : Nat := f.data.length

/-- A frame as it stands in an encoded message. -/
def encoded (f : Frame) : List Byte := littleEndian 4 f.size ++ f.data

end Frame

structure Message where
  frames : List Frame
deriving DecidableEq, Repr

namespace Message

def empty : Message := ⟨[]⟩

def size (m : Message) : Nat := m.frames.length

def addFrame (m : Message) (f : Frame) : Message := ⟨m.frames ++ [f]⟩

/-- `Message::messageSize`. -/
def messageSize (m : Message) : Nat := m.frames.foldl (fun totalSize frame => totalSize + (frame.size + 4)) 0 + 4

/-- The bytes `Message::writeMessage` puts at the start of the buffer. -/
def writeMessage (m : Message) : List Byte := littleEndian 4 m.frames.length ++ m.frames.flatMap Frame.encoded

/-- The numbers of the encoding fit their words. -/
def Encodable (m : Message) : Prop := m.frames.length < 2 ^ 32 ∧ ∀ f ∈ m.frames, f.size < 2 ^ 32

instance (m : Message) : Decidable m.Encodable := inferInstanceAs (Decidable (_ ∧ _))

end Message

/-- The encodings of messages, one after the other. -/
def encodings (ms : List Message) : List Byte := ms.flatMap Message.writeMessage

/-! ### Reading a buffer -/

/-- The bytes of a memory, by their offset from the start of the buffer. -/
abbrev Memory := Nat → Byte

/-- `n` bytes from offset `i` on. -/
def Memory.bytes (memory : Memory) (i n : Nat) : List Byte := (List.range n).map fun j => memory (i + j)

/-- `*((uint32_t*)p)`. -/
def Memory.word (memory : Memory) (i : Nat) : Nat := wordValue (memory.bytes i 4)

/-- `std::length_error`, with its text. -/
structure LengthError where
  what : String
deriving DecidableEq, Repr

/-- The conversion of a length to `ssize_t`. -/
def toSsize (n : Nat) : Int := Int.bmod n (2 ^ 64)

namespace Message

/-- The loop of `Message::readMessage`, with the number of frames still to read. -/
def readFrames (memory : Memory) (bufferLength : Nat) : Nat → Nat → Message → Except LengthError Message
  | 0, _, msg => .ok msg
  | frames + 1, current, msg =>
    let currentFrameLength := memory.word current
    let current := current + 4
    if ((current + currentFrameLength : Nat) : Int) > toSsize bufferLength then
      .error ⟨"Unable to construct Message: end of buffer"⟩
    else
      readFrames memory bufferLength frames (current + currentFrameLength)
        (msg.addFrame ⟨memory.bytes current currentFrameLength⟩)

/-- `Message::readMessage`. -/
def readMessage (memory : Memory) (bufferLength : Nat) : Except LengthError Message :=
  readFrames memory bufferLength (memory.word 0) 4 empty

end Message

/-! ### Sizes and encodings -/

theorem Frame.length_encoded (f : Frame) : f.encoded.length = f.size + 4 := by
  rw [encoded, List.length_append, length_littleEndian, Nat.add_comm]
  rfl

namespace Message

private theorem foldl_size (fs : List Frame) (n : Nat) :
    fs.foldl (fun totalSize frame => totalSize + (frame.size + 4)) n = n + (fs.flatMap Frame.encoded).length := by
  induction fs generalizing n with
  | nil => rfl
  | cons f fs ih =>
    rw [List.foldl_cons, ih, List.flatMap_cons, List.length_append, Frame.length_encoded]
    omega

/-- `writeMessage` writes exactly `messageSize` bytes. -/
theorem length_writeMessage (m : Message) : m.writeMessage.length = m.messageSize := by
  rw [writeMessage, List.length_append, length_littleEndian, messageSize, foldl_size]
  omega

theorem messageSize_eq (m : Message) : m.messageSize = (m.frames.flatMap Frame.encoded).length + 4 := by
  rw [messageSize, foldl_size, Nat.zero_add]

theorem four_le_messageSize (m : Message) : 4 ≤ m.messageSize := by
  rw [messageSize_eq]
  omega

theorem size_le_of_mem {fs : List Frame} {f : Frame} (h : f ∈ fs) : f.size ≤ (fs.flatMap Frame.encoded).length := by
  obtain ⟨as, bs, rfl⟩ := List.append_of_mem h
  simp only [List.flatMap_append, List.flatMap_cons, List.length_append, Frame.length_encoded]
  omega

theorem length_le_flatMap (fs : List Frame) : fs.length ≤ (fs.flatMap Frame.encoded).length := by
  induction fs with
  | nil => exact Nat.le_refl _
  | cons f fs ih =>
    rw [List.flatMap_cons, List.length_append, List.length_cons, Frame.length_encoded]
    omega

/-- A message of less than 4 GiB is encodable. -/
theorem encodable_of_messageSize_lt {m : Message} (h : m.messageSize < 2 ^ 32) : m.Encodable := by
  rw [messageSize_eq] at h
  have hlen := length_le_flatMap m.frames
  refine ⟨by omega, fun f hf => ?_⟩
  have := size_le_of_mem hf
  omega

end Message

end Cppio
