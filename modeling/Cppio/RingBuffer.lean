import Cppio.Lib.BoundedFifo
import Cppio.Types

/-!
# The ring buffer

`RingBuffer` of `src/common/inproc.cpp`, the variant compiled with `CPPIO_BLOCKING_INPROC`.  The bytes between the
read pointer and the write pointer are the queued ones; one slot stays free, so that equal pointers mean an empty
buffer.  Both operations finish a transfer that wraps past the end of the storage by calling themselves on the rest.
-/

namespace Cppio

open Segment

structure RingBuffer where
  data : List Byte
  wrptr : Nat
  rdptr : Nat
deriving DecidableEq, Repr

namespace RingBuffer

/-- `RingBuffer::RingBuffer`. -/
def new (bufferSize : Nat) : RingBuffer := { data := List.replicate bufferSize 0, wrptr := 0, rdptr := 0 }

def size (rb : RingBuffer) : Nat := rb.data.length

/-- What `read` returns, what it puts at the start of the caller's buffer, and the buffer after it. -/
structure Read where
  count : Nat
  bytes : List Byte
  after : RingBuffer
deriving DecidableEq, Repr

/-- What `write` returns, and the buffer after it. -/
structure Write where
  count : Nat
  after : RingBuffer
deriving DecidableEq, Repr

/-- `RingBuffer::read`. -/
def read (rb : RingBuffer) (buflen : Nat) : Read :=
  if rb.wrptr = rb.rdptr then { count := 0, bytes := [], after := rb }
  else if rb.rdptr < rb.wrptr then
    let tocopy := min (rb.wrptr - rb.rdptr) buflen
    { count := tocopy, bytes := slice rb.data rb.rdptr tocopy, after := { rb with rdptr := rb.rdptr + tocopy } }
  else
    let tocopy := min (rb.size - rb.rdptr) buflen
    let bytes := slice rb.data rb.rdptr tocopy
    let rdptr := if rb.rdptr + tocopy = rb.size then 0 else rb.rdptr + tocopy
    let rb' := { rb with rdptr := rdptr }
    if tocopy < buflen then
      if rb.wrptr = rdptr then { count := tocopy, bytes := bytes, after := rb' }
      else if tocopy = 0 then { count := 0, bytes := bytes, after := rb' }
      else
        let rest := read rb' (buflen - tocopy)
        { count := tocopy + rest.count, bytes := bytes ++ rest.bytes, after := rest.after }
    else { count := tocopy, bytes := bytes, after := rb' }
termination_by buflen

/-- `RingBuffer::write`; `buffer` is the caller's buffer with its length. -/
def write (rb : RingBuffer) (buffer : List Byte) : Write :=
  if rb.rdptr ≤ rb.wrptr then
    let room := min (rb.size - rb.wrptr) buffer.length
    let tocopy := if rb.rdptr = 0 ∧ room = rb.size - rb.wrptr then room - 1 else room
    let data := overwrite rb.data rb.wrptr (buffer.take tocopy)
    let wrptr := if rb.wrptr + tocopy = rb.size then 0 else rb.wrptr + tocopy
    let rb' := { rb with data := data, wrptr := wrptr }
    if tocopy < buffer.length then
      if rb.rdptr = 0 then { count := tocopy, after := rb' }
      else if tocopy = 0 then { count := 0, after := rb' }
      else
        let rest := write rb' (buffer.drop tocopy)
        { count := tocopy + rest.count, after := rest.after }
    else { count := tocopy, after := rb' }
  else
    let tocopy := min (rb.rdptr - 1 - rb.wrptr) buffer.length
    let data := overwrite rb.data rb.wrptr (buffer.take tocopy)
    { count := tocopy, after := { rb with data := data, wrptr := rb.wrptr + tocopy } }
termination_by buffer.length
decreasing_by
  have hpos : 0 < tocopy := Nat.pos_of_ne_zero ‹_›
  have hlt : tocopy < buffer.length := ‹_›
  rw [List.length_drop]
  exact Nat.sub_lt (Nat.lt_trans hpos hlt) hpos

def availableReadSize (rb : RingBuffer) : Nat :=
  if rb.rdptr = rb.wrptr then 0
  else if rb.rdptr < rb.wrptr then rb.wrptr - rb.rdptr
  else rb.size - rb.rdptr + rb.wrptr

def availableWriteSize (rb : RingBuffer) : Nat :=
  if rb.rdptr = rb.wrptr then rb.size - 1
  else if rb.rdptr < rb.wrptr then rb.size - rb.wrptr + rb.rdptr - 1
  else rb.rdptr - rb.wrptr - 1

/-- Both pointers lie in the storage. -/
def Valid (rb : RingBuffer) : Prop := rb.wrptr < rb.size ∧ rb.rdptr < rb.size

instance (rb : RingBuffer) : Decidable rb.Valid := inferInstanceAs (Decidable (_ ∧ _))

/-- The queued bytes, oldest first. -/
def contents (rb : RingBuffer) : List Byte :=
  if rb.rdptr ≤ rb.wrptr then slice rb.data rb.rdptr (rb.wrptr - rb.rdptr)
  else slice rb.data rb.rdptr (rb.size - rb.rdptr) ++ slice rb.data 0 rb.wrptr

end RingBuffer

end Cppio
