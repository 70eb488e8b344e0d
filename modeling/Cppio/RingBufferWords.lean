import Cppio.Lib.Traced
import Cppio.MessageCodec
import Cppio.RingBuffer

/-!
# The ring buffer on machine words

`RingBuffer` of `src/common/inproc.cpp` as in `Cppio.RingBuffer`, with the pointers, the lengths and all arithmetic on
them in `size_t`: additions and subtractions wrap.  A call records its additions and subtractions with their operands,
its block copies with the offsets in `m_data` and in the caller's buffer, and its recursive calls with their lengths.
The caller's buffer is a pointer, that is a memory and an offset, and a length.
-/

namespace Cppio

open Segment

/-- What a call does that can go wrong. -/
inductive Step where
  | sub (a b : UInt64)
  | add (a b : UInt64)
  | memcpy (storage buffer : Nat) (n : UInt64)
  | call (buflen : UInt64)
deriving DecidableEq, Repr

abbrev Steps := Traced Step

def sub (a b : UInt64) : Steps { c : UInt64 // c = a - b } := do
  Traced.record (.sub a b)
  return ⟨a - b, rfl⟩

def add (a b : UInt64) : Steps UInt64 := do
  Traced.record (.add a b)
  return a + b

private theorem toNat_sub_lt {a b : UInt64} (hlt : b < a) (hne : ¬ b = 0) : (a - b).toNat < a.toNat := by
  rw [UInt64.toNat_sub_of_le _ _ (UInt64.le_of_lt hlt)]
  have hlt : b.toNat < a.toNat := hlt
  have hpos : b.toNat ≠ 0 := fun h => hne (UInt64.toNat_inj.1 h)
  omega

structure WordRing where
  data : List Byte
  wrptr : UInt64
  rdptr : UInt64
deriving DecidableEq, Repr

namespace WordRing

/-- `RingBuffer::RingBuffer`. -/
def new (bufferSize : Nat) : WordRing := { data := List.replicate bufferSize 0, wrptr := 0, rdptr := 0 }

/-- `m_data.size()`. -/
def size (rb : WordRing) : UInt64 := .ofNat rb.data.length

structure Read where
  count : UInt64
  bytes : List Byte
  after : WordRing
deriving DecidableEq, Repr

structure Write where
  count : UInt64
  after : WordRing
deriving DecidableEq, Repr

/-- `RingBuffer::read` into the caller's buffer from `pos` on. -/
def read (rb : WordRing) (pos : Nat) (buflen : UInt64) : Steps Read :=
  if rb.wrptr = rb.rdptr then return { count := 0, bytes := [], after := rb }
  else if rb.rdptr < rb.wrptr then do
    let filled ← sub rb.wrptr rb.rdptr
    let tocopy := min filled.1 buflen
    Traced.record (.memcpy rb.rdptr.toNat pos tocopy)
    let rdptr ← add rb.rdptr tocopy
    return { count := tocopy, bytes := slice rb.data rb.rdptr.toNat tocopy.toNat,
             after := { rb with rdptr := rdptr } }
  else do
    let filled ← sub rb.size rb.rdptr
    let tocopy := min filled.1 buflen
    Traced.record (.memcpy rb.rdptr.toNat pos tocopy)
    let bytes := slice rb.data rb.rdptr.toNat tocopy.toNat
    let moved ← add rb.rdptr tocopy
    let rdptr := if moved = rb.size then 0 else moved
    let rb' := { rb with rdptr := rdptr }
    if tocopy < buflen then
      if rb.wrptr = rdptr then return { count := tocopy, bytes := bytes, after := rb' }
      else if tocopy = 0 then return { count := 0, bytes := bytes, after := rb' }
      else
        let left ← sub buflen tocopy
        Traced.record (.call left.1)
        let rest ← read rb' (pos + tocopy.toNat) left.1
        let count ← add tocopy rest.count
        return { count := count, bytes := bytes ++ rest.bytes, after := rest.after }
    else return { count := tocopy, bytes := bytes, after := rb' }
termination_by buflen.toNat
decreasing_by
  rw [left.2]
  exact toNat_sub_lt ‹_› ‹_›

/-- The length of the first copy of `write`. -/
def firstCopy (rb : WordRing) (buflen : UInt64) : Steps UInt64 := do
  let room ← sub rb.size rb.wrptr
  let tocopy := min room.1 buflen
  if rb.rdptr = 0 then
    let room ← sub rb.size rb.wrptr
    if tocopy = room.1 then
      let fewer ← sub tocopy 1
      return fewer.1
    else return tocopy
  else return tocopy

/-- `RingBuffer::write` from the caller's buffer from `pos` on. -/
def write (rb : WordRing) (buffer : Memory) (pos : Nat) (buflen : UInt64) : Steps Write :=
  if rb.rdptr ≤ rb.wrptr then do
    let tocopy ← rb.firstCopy buflen
    Traced.record (.memcpy rb.wrptr.toNat pos tocopy)
    let data := overwrite rb.data rb.wrptr.toNat (buffer.bytes pos tocopy.toNat)
    let moved ← add rb.wrptr tocopy
    let wrptr := if moved = rb.size then 0 else moved
    let rb' := { rb with data := data, wrptr := wrptr }
    if tocopy < buflen then
      if rb.rdptr = 0 then return { count := tocopy, after := rb' }
      else if tocopy = 0 then return { count := 0, after := rb' }
      else
        let left ← sub buflen tocopy
        Traced.record (.call left.1)
        let rest ← write rb' buffer (pos + tocopy.toNat) left.1
        let count ← add tocopy rest.count
        return { count := count, after := rest.after }
    else return { count := tocopy, after := rb' }
  else do
    let behind ← sub rb.rdptr 1
    let room ← sub behind.1 rb.wrptr
    let tocopy := min room.1 buflen
    Traced.record (.memcpy rb.wrptr.toNat pos tocopy)
    let data := overwrite rb.data rb.wrptr.toNat (buffer.bytes pos tocopy.toNat)
    let wrptr ← add rb.wrptr tocopy
    return { count := tocopy, after := { rb with data := data, wrptr := wrptr } }
termination_by buflen.toNat
decreasing_by
  rw [left.2]
  exact toNat_sub_lt ‹_› ‹_›

def availableReadSize (rb : WordRing) : Steps UInt64 :=
  if rb.rdptr = rb.wrptr then return 0
  else if rb.rdptr < rb.wrptr then do
    let filled ← sub rb.wrptr rb.rdptr
    return filled.1
  else do
    let filled ← sub rb.size rb.rdptr
    add filled.1 rb.wrptr

def availableWriteSize (rb : WordRing) : Steps UInt64 :=
  if rb.rdptr = rb.wrptr then do
    let room ← sub rb.size 1
    return room.1
  else if rb.rdptr < rb.wrptr then do
    let behind ← sub rb.size rb.wrptr
    let both ← add behind.1 rb.rdptr
    let room ← sub both 1
    return room.1
  else do
    let between ← sub rb.rdptr rb.wrptr
    let room ← sub between.1 1
    return room.1

/-! ### Runs of calls -/

/-- A call of a ring buffer; `write` is given the caller's buffer. -/
inductive Call where
  | read (buflen : UInt64)
  | write (buffer : Memory) (buflen : UInt64)

def apply (rb : WordRing) : Call → WordRing
  | .read buflen => (rb.read 0 buflen).value.after
  | .write buffer buflen => (rb.write buffer 0 buflen).value.after

/-- A fresh ring buffer of `N` slots after a sequence of calls. -/
def afterCalls (N : Nat) (calls : List Call) : WordRing := calls.foldl apply (new N)

end WordRing

end Cppio
