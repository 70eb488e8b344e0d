import Mathlib.Data.List.Induction
import Cppio.MessageCodec

/-!
# Typed values in messages

`Frame::fromValue`, `Message::operator<<` and `Message::get` of `src/message.cpp`.  A frame of an integer holds the
bytes of the object, on a little-endian machine, and `get` reads an object of the requested type at the start of the
frame, whatever the size of the frame.  The number of frames is written as a 32-bit word and the bound of the buffer
is compared as a `ssize_t`; a message passes through a buffer exactly when it respects both (`roundTrips_iff`).
-/

namespace Cppio

/-- A value of one of the types that `Frame::fromValue` and `Message::get` are overloaded for. -/
inductive Value where
  | uint8 (value : UInt8)
  | uint16 (value : UInt16)
  | uint32 (value : UInt32)
  | string (value : List Byte)
deriving DecidableEq, Repr

inductive ValueType where
  | uint8
  | uint16
  | uint32
  | string
deriving DecidableEq, Repr

def Value.type : Value → ValueType
  | .uint8 _ => .uint8
  | .uint16 _ => .uint16
  | .uint32 _ => .uint32
  | .string _ => .string

/-- A string has less than `2 ^ 32` bytes. -/
def Value.Short : Value → Prop
  | .string value => value.length < 2 ^ 32
  | _ => True

instance : DecidablePred Value.Short
  | .string value => inferInstanceAs (Decidable (value.length < 2 ^ 32))
  | .uint8 _ | .uint16 _ | .uint32 _ => .isTrue trivial

namespace Frame

/-- `Frame(reinterpret_cast<uint8_t*>(&value), sizeof(value))`, for an object of `w` bytes. -/
def ofObject (w value : Nat) : Frame := ⟨littleEndian w value⟩

/-- `*reinterpret_cast<const T*>(data())`, for objects of `w` bytes; nothing can be said where the frame is shorter.
-/
def object (f : Frame) (w : Nat) : Option Nat := if w ≤ f.size then some (wordValue (f.data.take w)) else none

/-- `Frame::fromValue`. -/
def fromValue : Value → Frame
  | .uint8 value => ofObject 1 value.toNat
  | .uint16 value => ofObject 2 value.toNat
  | .uint32 value => ofObject 4 value.toNat
  | .string value => ⟨value⟩

/-- The value a frame holds, read as the requested type. -/
def toValue (f : Frame) : ValueType → Option Value
  | .uint8 => (f.object 1).map fun value => .uint8 (.ofNat value)
  | .uint16 => (f.object 2).map fun value => .uint16 (.ofNat value)
  | .uint32 => (f.object 4).map fun value => .uint32 (.ofNat value)
  | .string => some (.string f.data)

end Frame

namespace Message

/-- `Message::operator<<`. -/
def append (m : Message) (value : Value) : Message := m.addFrame (.fromValue value)

/-- `Message::get`; nothing can be said where there is no such frame. -/
def get (m : Message) (type : ValueType) (frameNumber : Nat) : Option Value :=
  m.frames[frameNumber]?.bind fun frame => frame.toValue type

/-- `Message() << value << ...`. -/
def ofValues (values : List Value) : Message := values.foldl append empty

/-- The values are read back from every buffer of `messageSize()` bytes that they were written to. -/
def RoundTrips (values : List Value) : Prop :=
  ∀ memory : Memory, memory.bytes 0 (ofValues values).messageSize = (ofValues values).writeMessage →
    ∃ m, readMessage memory (ofValues values).messageSize = .ok m ∧ m.size = values.length ∧
      ∀ (i : Nat) (v : Value), values[i]? = some v → m.get v.type i = some v

end Message

/-! ### One value -/

theorem Frame.object_ofObject {w value : Nat} (h : value < 256 ^ w) : (ofObject w value).object w = some value := by
  have hlen := length_littleEndian w value
  have hsize : w ≤ (ofObject w value).size := Nat.le_of_eq hlen.symm
  rw [object, if_pos hsize, ofObject, List.take_of_length_le (Nat.le_of_eq hlen),
    wordValue_littleEndian_of_lt h]

/-- A value is read back from its frame. -/
theorem Frame.toValue_fromValue (v : Value) : (fromValue v).toValue v.type = some v := by
  cases v with
  | uint8 value =>
    have hobject : (ofObject 1 value.toNat).object 1 = some value.toNat := object_ofObject value.toNat_lt
    simp only [fromValue, Value.type, toValue, hobject, Option.map_some, UInt8.ofNat_toNat]
  | uint16 value =>
    have hobject : (ofObject 2 value.toNat).object 2 = some value.toNat := object_ofObject value.toNat_lt
    simp only [fromValue, Value.type, toValue, hobject, Option.map_some, UInt16.ofNat_toNat]
  | uint32 value =>
    have hobject : (ofObject 4 value.toNat).object 4 = some value.toNat := object_ofObject value.toNat_lt
    simp only [fromValue, Value.type, toValue, hobject, Option.map_some, UInt32.ofNat_toNat]
  | string value => rfl

theorem Frame.size_fromValue_lt {v : Value} (h : v.Short) : (fromValue v).size < 2 ^ 32 := by
  cases v with
  | string value => exact h
  | uint8 | uint16 | uint32 => simp [fromValue, ofObject, size]

namespace Message

theorem frames_ofValues (values : List Value) : (ofValues values).frames = values.map Frame.fromValue := by
  induction values using List.reverseRecOn with
  | nil => rfl
  | append_singleton values v ih =>
    rw [ofValues, List.foldl_append, List.map_append, ← ih]
    rfl

theorem size_ofValues (values : List Value) : (ofValues values).size = values.length := by
  rw [size, frames_ofValues, List.length_map]

theorem get_ofValues {values : List Value} {i : Nat} {v : Value} (h : values[i]? = some v) :
    (ofValues values).get v.type i = some v := by
  rw [get, frames_ofValues, List.getElem?_map, h]
  exact Frame.toValue_fromValue v

private theorem encodable_ofValues {values : List Value} (hshort : ∀ v ∈ values, v.Short)
    (hcount : values.length < 2 ^ 32) : (ofValues values).Encodable := by
  rw [Encodable, frames_ofValues, List.length_map]
  refine ⟨hcount, fun f hf => ?_⟩
  obtain ⟨v, hv, rfl⟩ := List.mem_map.1 hf
  exact Frame.size_fromValue_lt (hshort v hv)

/-! ### What can be read back -/

theorem size_readFrames {memory : Memory} {bufferLength : Nat} (n : Nat) : ∀ (current : Nat) (msg m : Message),
    readFrames memory bufferLength n current msg = .ok m → m.size = msg.size + n := by
  induction n with
  | zero =>
    intro current msg m h
    cases h
    rfl
  | succ n ih =>
    intro current msg m h
    rw [readFrames] at h
    split at h
    · cases h
    · rw [ih _ _ _ h, addFrame, size, size, List.length_append, List.length_singleton]
      omega

/-- A message that was read has a 32-bit number of frames. -/
theorem size_lt_of_readMessage {memory : Memory} {bufferLength : Nat} {m : Message}
    (h : readMessage memory bufferLength = .ok m) : m.size < 2 ^ 32 := by
  rw [size_readFrames _ _ _ _ h, empty, size, List.length_nil, Nat.zero_add]
  exact Memory.word_lt memory 0

-- the check of the last frame compares the end of the message with the length of the buffer
private theorem end_le_of_readFrames {memory : Memory} {bufferLength : Nat} (fs : List Frame) :
    ∀ (current n : Nat) (msg m : Message), (∀ f ∈ fs, f.size < 2 ^ 32) → fs ≠ [] →
      memory.bytes current n = fs.flatMap Frame.encoded →
      readFrames memory bufferLength fs.length current msg = .ok m →
      ((current + n : Nat) : Int) ≤ toSsize bufferLength := by
  induction fs with
  | nil => exact fun _ _ _ _ _ hne => absurd rfl hne
  | cons f fs ih =>
    intro current n msg m hfit _ hbytes h
    obtain ⟨hn, hword, -, hrest⟩ := frame_of_bytes hbytes (hfit f (List.mem_cons_self ..))
    have hfits : ∀ g ∈ fs, g.size < 2 ^ 32 := fun g hg => hfit g (List.mem_cons_of_mem _ hg)
    rw [List.length_cons, readFrames, hword] at h
    split at h
    · cases h
    · by_cases hlast : fs = []
      · subst hlast
        rw [List.flatMap_nil, List.length_nil] at hn
        omega
      · have hle := ih _ _ _ _ hfits hlast hrest h
        omega

/-- A nonempty message that is read back from a buffer of its size is smaller than half the address space. -/
theorem messageSize_lt_of_readMessage {m m' : Message} (hm : m.Encodable) {memory : Memory}
    (hbytes : memory.bytes 0 m.messageSize = m.writeMessage)
    (h : readMessage memory m.messageSize = .ok m') : m.messageSize < 2 ^ 63 := by
  by_cases hne : m.frames = []
  · rw [messageSize_eq, hne, List.flatMap_nil, List.length_nil]
    decide
  · rw [writeMessage] at hbytes
    obtain ⟨hcount, hframes⟩ := Memory.bytes_eq_append hbytes
    rw [length_littleEndian] at hcount hframes
    rw [readMessage, Memory.word_of_bytes hcount hm.1] at h
    have hle := end_le_of_readFrames m.frames _ _ _ _ hm.2 hne hframes h
    have hlt : toSsize m.messageSize < 2 ^ 63 := by
      have := Int.bmod_lt (x := (m.messageSize : Int)) (m := 2 ^ 64) (by decide)
      unfold toSsize
      omega
    rw [messageSize_eq] at hlt hle ⊢
    omega

/-- A memory that starts with given bytes. -/
theorem exists_memory (bytes : List Byte) : ∃ memory : Memory, memory.bytes 0 bytes.length = bytes := by
  refine ⟨(bytes.getD · 0), List.ext_getElem (Memory.length_bytes ..) fun i h _ => ?_⟩
  rw [Memory.length_bytes] at h
  simp [Memory.bytes, h]

private theorem exists_readMessage {values : List Value} (h : RoundTrips values) :
    ∃ (memory : Memory) (m : Message), memory.bytes 0 (ofValues values).messageSize = (ofValues values).writeMessage ∧
      readMessage memory (ofValues values).messageSize = .ok m ∧ m.size = values.length := by
  obtain ⟨memory, hmemory⟩ := exists_memory (ofValues values).writeMessage
  rw [length_writeMessage] at hmemory
  obtain ⟨m, hread, hsize, -⟩ := h memory hmemory
  exact ⟨memory, m, hmemory, hread, hsize⟩

theorem length_lt_of_roundTrips {values : List Value} (h : RoundTrips values) : values.length < 2 ^ 32 := by
  obtain ⟨memory, m, -, hread, hsize⟩ := exists_readMessage h
  rw [← hsize]
  exact size_lt_of_readMessage hread

/-- Values survive the round trip through a buffer if and only if there are less than `2 ^ 32` of them and the message
has less than `2 ^ 63` bytes. -/
theorem roundTrips_iff {values : List Value} (hshort : ∀ v ∈ values, v.Short) :
    RoundTrips values ↔ values.length < 2 ^ 32 ∧ (ofValues values).messageSize < 2 ^ 63 := by
  constructor
  · intro h
    have hcount := length_lt_of_roundTrips h
    obtain ⟨memory, m, hbytes, hread, -⟩ := exists_readMessage h
    exact ⟨hcount, messageSize_lt_of_readMessage (encodable_ofValues hshort hcount) hbytes hread⟩
  · intro ⟨hcount, hmax⟩ memory hbytes
    exact ⟨ofValues values, readMessage_of_bytes (encodable_ofValues hshort hcount) hmax (Nat.le_refl _) hbytes,
      size_ofValues values, fun i v hv => get_ofValues hv⟩

/-- A word, a string with a NUL in it, an empty string and a byte. -/
theorem roundTrips_iff_mixed : RoundTrips [.uint16 0xcafe, .string [1, 0, 2], .string [], .uint8 7] :=
  (roundTrips_iff (by decide)).2 (by decide)

/-- `2 ^ 32` bytes do not survive: their number is written as `0`. -/
theorem not_roundTrips : (∀ v ∈ List.replicate (2 ^ 32) (Value.uint8 0), v.Short) ∧
    ¬ RoundTrips (List.replicate (2 ^ 32) (Value.uint8 0)) := by
  refine ⟨fun v hv => ?_, fun h => ?_⟩
  · rw [List.eq_of_mem_replicate hv]
    trivial
  · have hlt := length_lt_of_roundTrips h
    rw [List.length_replicate] at hlt
    exact Nat.lt_irrefl _ hlt

end Message

end Cppio
