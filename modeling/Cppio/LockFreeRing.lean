import Cppio.Lib.Circular
import Cppio.Lib.Transition
import Cppio.Types

/-!
# The lock-free ring buffer

`RingBuffer` of `src/common/inproc.cpp`, the variant compiled without `CPPIO_BLOCKING_INPROC`, with one thread that
calls `write` and one that calls `read`.  Every load and every store of `m_wrptr` and `m_rdptr` is a step of its own,
and so is every byte of a `memcpy`; the bytes of one `memcpy` are copied in any order.  Between two steps of one
thread the other may take any number of steps, so what a call has loaded may be out of date when it is used.

A call that wraps calls itself on the rest of the caller's buffer.  `Writer` and `Reader` keep what the calls around
the current one have counted, which is what is added to its result.
-/

namespace Cppio

namespace LockFreeRing

/-- What a call of `write` does next. -/
inductive WriterStage where
  | loadWrptr
  | loadRdptr (wrptr : Nat)
  | copy (wrptr rdptr tocopy : Nat) (todo : List Nat)
  | leave
deriving DecidableEq, Repr

/-- The writing thread: the caller's buffer, and how much of it was counted before the current stage. -/
inductive Writer where
  | idle
  | busy (buffer : List Byte) (counted : Nat) (st : WriterStage)
deriving DecidableEq, Repr

/-- What a call of `read` does next; `dest` is what the copy has put into the caller's buffer. -/
inductive ReaderStage where
  | loadWrptr
  | loadRdptr (wrptr : Nat)
  | copy (wrptr rdptr tocopy : Nat) (todo : List Nat) (dest : Nat → Byte)
  | leave

/-- The reading thread: the length asked for, and the bytes counted before the current stage. -/
inductive Reader where
  | idle
  | busy (buflen : Nat) (bytes : List Byte) (st : ReaderStage)

/-- The buffer, and where the two threads are. -/
structure State where
  data : Nat → Byte
  wrptr : Nat
  rdptr : Nat
  writer : Writer
  reader : Reader

/-- The calls that return: a write of a buffer with its result, and a read with the bytes it returns. -/
inductive Event where
  | wrote (buffer : List Byte) (count : Nat)
  | read (buflen : Nat) (bytes : List Byte)
deriving DecidableEq, Repr

/-- `copyIn` and `copyOut` copy one byte of a `memcpy`. -/
inductive Label where
  | callWrite (buffer : List Byte)
  | callRead (buflen : Nat)
  | writer
  | reader
  | copyIn (i : Nat)
  | copyOut (i : Nat)
deriving DecidableEq, Repr

/-- The `tocopy` of `read`. -/
def readLength (size wrptr rdptr buflen : Nat) : Nat :=
  if rdptr < wrptr then min (wrptr - rdptr) buflen else min (size - rdptr) buflen

/-- The `tocopy` of `write`. -/
def writeLength (size wrptr rdptr buflen : Nat) : Nat :=
  if rdptr ≤ wrptr then
    let tocopy := min (size - wrptr) buflen
    if rdptr = 0 ∧ tocopy = size - wrptr then tocopy - 1 else tocopy
  else min (rdptr - 1 - wrptr) buflen

/-- A pointer moved by `tocopy`, back to the start when it hits the end of the storage. -/
def advance (size ptr tocopy : Nat) : Nat := if ptr + tocopy = size then 0 else ptr + tocopy

/-- `RingBuffer::write`: the steps on `m_wrptr` and `m_rdptr`. -/
def writerNext (size : Nat) (s : State) : Option (State × List Event) :=
  match s.writer with
  | .idle => none
  | .busy buffer counted .loadWrptr => some ({ s with writer := .busy buffer counted (.loadRdptr s.wrptr) }, [])
  | .busy buffer counted (.loadRdptr wrptr) =>
    let tocopy := writeLength size wrptr s.rdptr (buffer.length - counted)
    some ({ s with writer := .busy buffer counted (.copy wrptr s.rdptr tocopy (List.range tocopy)) }, [])
  | .busy buffer counted (.copy wrptr rdptr tocopy []) =>
    if rdptr ≤ wrptr then
      let st := if tocopy < buffer.length - counted then
          if rdptr = 0 then .leave else if tocopy = 0 then .leave else .loadWrptr
        else .leave
      some ({ s with wrptr := advance size wrptr tocopy, writer := .busy buffer (counted + tocopy) st }, [])
    else some ({ s with wrptr := s.wrptr + tocopy, writer := .busy buffer (counted + tocopy) .leave }, [])
  | .busy _ _ (.copy _ _ _ (_ :: _)) => none
  | .busy buffer counted .leave => some ({ s with writer := .idle }, [.wrote buffer counted])

/-- `RingBuffer::read`: the steps on `m_wrptr` and `m_rdptr`. -/
def readerNext (size : Nat) (s : State) : Option (State × List Event) :=
  match s.reader with
  | .idle => none
  | .busy buflen bytes .loadWrptr => some ({ s with reader := .busy buflen bytes (.loadRdptr s.wrptr) }, [])
  | .busy buflen bytes (.loadRdptr wrptr) =>
    if wrptr = s.rdptr then some ({ s with reader := .busy buflen bytes .leave }, [])
    else
      let tocopy := readLength size wrptr s.rdptr (buflen - bytes.length)
      let st := .copy wrptr s.rdptr tocopy (List.range tocopy) fun _ => 0
      some ({ s with reader := .busy buflen bytes st }, [])
  | .busy buflen bytes (.copy wrptr rdptr tocopy [] dest) =>
    let bytes' := bytes ++ (List.range tocopy).map dest
    if rdptr < wrptr then
      some ({ s with rdptr := s.rdptr + tocopy, reader := .busy buflen bytes' .leave }, [])
    else
      let rdptr' := advance size rdptr tocopy
      let st := if tocopy < buflen - bytes.length then
          if wrptr = rdptr' then .leave else if tocopy = 0 then .leave else .loadWrptr
        else .leave
      some ({ s with rdptr := rdptr', reader := .busy buflen bytes' st }, [])
  | .busy _ _ (.copy _ _ _ (_ :: _) _) => none
  | .busy buflen bytes .leave => some ({ s with reader := .idle }, [.read buflen bytes])

/-- One byte of `memcpy(m_data.data() + wrptr, buffer, tocopy)`. -/
def copyIn (s : State) (i : Nat) : Option (State × List Event) :=
  match s.writer with
  | .busy buffer counted (.copy wrptr rdptr tocopy todo) =>
    if i ∈ todo then
      some ({ s with data := Function.update s.data (wrptr + i) (buffer.getD (counted + i) 0),
                     writer := .busy buffer counted (.copy wrptr rdptr tocopy (todo.erase i)) }, [])
    else none
  | _ => none

/-- One byte of `memcpy(buffer, m_data.data() + rdptr, tocopy)`. -/
def copyOut (s : State) (i : Nat) : Option (State × List Event) :=
  match s.reader with
  | .busy buflen bytes (.copy wrptr rdptr tocopy todo dest) =>
    if i ∈ todo then
      let st := .copy wrptr rdptr tocopy (todo.erase i) (Function.update dest i (s.data (rdptr + i)))
      some ({ s with reader := .busy buflen bytes st }, [])
    else none
  | _ => none

/-- Two threads on a ring buffer of `size` slots. -/
def machine (size : Nat) : Machine State Label Event where
  next s
    | .callWrite buffer =>
      match s.writer with
      | .idle => some ({ s with writer := .busy buffer 0 .loadWrptr }, [])
      | .busy .. => none
    | .callRead buflen =>
      match s.reader with
      | .idle => some ({ s with reader := .busy buflen [] .loadWrptr }, [])
      | .busy .. => none
    | .writer => writerNext size s
    | .reader => readerNext size s
    | .copyIn i => copyIn s i
    | .copyOut i => copyOut s i

/-- `RingBuffer::RingBuffer`. -/
def new : State := { data := fun _ => 0, wrptr := 0, rdptr := 0, writer := .idle, reader := .idle }

/-! ### What the threads have done -/

/-- The bytes counted by the results of the writes that have returned. -/
def written (tr : List Event) : List Byte :=
  tr.flatMap fun
    | .wrote buffer count => buffer.take count
    | .read _ _ => []

/-- The bytes returned by the reads that have returned. -/
def returned (tr : List Event) : List Byte :=
  tr.flatMap fun
    | .wrote _ _ => []
    | .read _ bytes => bytes

/-- The bytes a write in progress has counted. -/
def Writer.counted : Writer → List Byte
  | .idle => []
  | .busy buffer counted _ => buffer.take counted

/-- The bytes a read in progress has counted. -/
def Reader.counted : Reader → List Byte
  | .idle => []
  | .busy _ bytes _ => bytes

/-- A slot that the copy in progress of the writer has written or will write. -/
def Writer.Touches : Writer → Nat → Prop
  | .busy _ _ (.copy wrptr _ tocopy _), x => wrptr ≤ x ∧ x < wrptr + tocopy
  | _, _ => False

/-- A slot that the copy in progress of the reader has read or will read. -/
def Reader.Touches : Reader → Nat → Prop
  | .busy _ _ (.copy _ rdptr tocopy _ _), x => rdptr ≤ x ∧ x < rdptr + tocopy
  | _, _ => False

/-- A slot that holds a byte that was written and not yet read: those from the read pointer on to the write
pointer. -/
def State.Unread (size : Nat) (s : State) (x : Nat) : Prop := Circular.Between size s.rdptr s.wrptr x

end LockFreeRing

end Cppio
