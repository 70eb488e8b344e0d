import Cppio.Lib.Dialogue
import Cppio.Message

/-!
# The message protocol

`MessageProtocol` of `src/message.cpp`.  `readMessage` is a dialogue with a line: it asks the line for bytes and is
given a `ReadResult`.  Its three loops over partial reads are one definition, `readLoop`; the result of a read is
stored in an `int`, and a result that is not positive is returned at once, with the frames read so far left in the
message.

`sendMessage` is a loop over a state of two variables.  The result of a write is stored in a `size_t` and never
looked at; `SendState.next` is the arithmetic of the loop body as the machine does it, and the bytes past the buffer
that a wrong pointer designates are a parameter.
-/

namespace Cppio

/-! ### Receiving -/

/-- The bytes `IoLine::read` puts into the buffer. -/
def ReadResult.bytes : ReadResult → List Byte
  | .ok bytes => bytes
  | .error _ => []

theorem ReadResult.bytes_pos {r : ReadResult} (h : 0 < toInt32 r.value) : 0 < r.bytes.length := by
  cases r with
  | ok bytes =>
    rcases bytes with _ | ⟨b, bytes⟩
    · exact absurd h (by decide)
    · exact Nat.succ_pos _
  | error e =>
    have := e.code_neg
    rw [value, toInt32_code] at h
    omega

/-- What talks to a line by reading from it. -/
abbrev Reader := Dialogue ReadResult

/-- `while(bytesRead < len)`: read until `len` bytes are there; `got` are those already read. -/
def readLoop (len : Nat) (got : List Byte) : Reader (Except Int (List Byte)) :=
  if got.length < len then
    .ask (len - got.length) fun r =>
      let result := toInt32 r.value
      if 0 < result then readLoop len (got ++ r.bytes) else .done (.error result)
  else .done (.ok got)
termination_by len - got.length
decreasing_by
  have := ReadResult.bytes_pos ‹_›
  rw [List.length_append]
  omega

namespace MessageProtocol

/-- The loop over the frames, with the number of frames still to read. -/
def readFrames : Nat → Message → Reader (Int × Message)
  | 0, m => .done (1, m)
  | frames + 1, m =>
    (readLoop 4 []).bind fun
      | .error result => .done (result, m)
      | .ok frameLength => (readLoop (wordValue frameLength) []).bind fun
        | .error result => .done (result, m)
        | .ok data => readFrames frames (m.addFrame ⟨data⟩)

/-- `MessageProtocol::readMessage`: what it returns, and the message after it. -/
def readMessage (m : Message) : Reader (Int × Message) :=
  (readLoop 4 []).bind fun
    | .error result => .done (result, m)
    | .ok frames => readFrames (wordValue frames) m

/-! ### Sending -/

/-- The `size_t` an integer converts to. -/
def toSizeT (x : Int) : Int := x % 2 ^ 64

/-- The variables of `sendMessage`: `data` is an offset from the start of the buffer. -/
structure SendState where
  towrite : Int
  data : Int
deriving DecidableEq, Repr

def SendState.start (m : Message) : SendState := { towrite := toInt32 m.messageSize, data := 0 }

/-- The loop body after `write` returned `result`. -/
def SendState.next (st : SendState) (result : Int) : SendState :=
  let done := toSizeT result
  { towrite := toInt32 (toSizeT st.towrite - done), data := Int.bmod (st.data + done) (2 ^ 64) }

/-- The bytes at an offset from the start of the buffer; `outside` is what lies around it. -/
def bytesAt (buffer : List Byte) (outside : Int → Byte) (i : Int) (n : Nat) : List Byte :=
  (List.range n).map fun (j : Nat) =>
    if 0 ≤ i + j ∧ i + j < buffer.length then buffer.getD (i + j).toNat 0 else outside (i + j)

/-- A call of `IoLine::write`: where its bytes begin in the buffer, the bytes, and what it returned. -/
structure WriteCall where
  offset : Int
  bytes : List Byte
  result : Int
deriving DecidableEq, Repr

/-- The outcome of `sendMessage`: its result, its calls of `write`, and the line after it. -/
structure Sent (σ : Type) where
  result : Int
  calls : List WriteCall
  line : σ

variable {σ : Type}

/-- The loop of `sendMessage`; `none` when the fuel does not suffice. -/
def sendLoop (line : IoLine σ) (buffer : List Byte) (outside : Int → Byte) :
    Nat → SendState → σ → Option (Sent σ)
  | 0, _, _ => none
  | fuel + 1, st, s =>
    if 0 < st.towrite then
      let bytes := bytesAt buffer outside st.data st.towrite.toNat
      let (result, s') := line.write bytes s
      (sendLoop line buffer outside fuel (st.next result) s').map fun sent =>
        { sent with calls := ⟨st.data, bytes, result⟩ :: sent.calls }
    else some { result := 1, calls := [], line := s }

/-- `MessageProtocol::sendMessage`. -/
def sendMessage (line : IoLine σ) (outside : Int → Byte) (fuel : Nat) (m : Message) (s : σ) : Option (Sent σ) :=
  sendLoop line m.writeMessage outside fuel (.start m) s

/-- The bytes the line accepted: of every call as many as it returned. -/
def accepted (calls : List WriteCall) : List Byte := calls.flatMap fun c => c.bytes.take c.result.toNat

end MessageProtocol

end Cppio
