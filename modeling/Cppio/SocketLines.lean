import Cppio.InprocLine
import Cppio.Sockets

/-!
# Sockets as lines

`read`, `write` and `setOption` of `UnixSocket` and `TcpSocket` in `src/posix/io_socket.cpp`, and the system under
them: what it keeps for a thread and its sockets, and which replies to a call are possible (`System.respond`).

`errno` belongs to the thread, and a call that succeeds leaves it as it is, as the wrappers of the system calls do.
-/

namespace Cppio

/-! ### The values of `errno` that the sockets ask for -/

namespace Errno

def eagain : Int := 11
def econnreset : Int := 104
def enotconn : Int := 107
def etimedout : Int := 110

end Errno

inductive StreamCall where
  | read (fd : Int) (buflen : Nat)
  | write (fd : Int) (buffer : List Byte)
  /-- With `SO_RCVTIMEO` or `SO_SNDTIMEO`, and a `timeval`. -/
  | setsockopt (fd : Int) (option : LineOption) (tvSec tvUsec : Int)
deriving DecidableEq, Repr

/-- What a call returns, `errno` behind it, and what it has put into the caller's buffer. -/
structure StreamReply where
  rc : Int
  errno : Int
  bytes : List Byte
deriving DecidableEq, Repr

abbrev StreamIo (α : Type) := Interaction StreamCall StreamReply α

namespace Socket

/-- `read` of both classes. -/
def read (this : Socket) (buflen : Nat) : StreamIo ReadResult :=
  .call (.read this.socket buflen) fun reply =>
    if reply.rc < 0 then
      if reply.errno = Errno.econnreset ∨ reply.errno = Errno.enotconn then .done (.error .eConnectionLost)
      else if reply.errno = Errno.eagain then .done (.error .eTimeout)
      else .done (.error .eUnknown)
    else if reply.rc = 0 then
      if reply.errno ≠ Errno.etimedout then .done (.error .eConnectionLost)
      else .done (.error .eTimeout)
    else .done (.ok reply.bytes)

/-- `setOption` of both classes, which ignore what `setsockopt` returns. -/
def setOption (this : Socket) (option : LineOption) (msecs : Int) : StreamIo Unit :=
  let secs := msecs.tdiv 1000
  let restMsecs := msecs - secs * 1000
  .call (.setsockopt this.socket option secs (restMsecs * 1000)) fun _ => .done ()

end Socket

namespace UnixSocket

def read (this : Socket) (buflen : Nat) : StreamIo ReadResult := this.read buflen

def write (this : Socket) (buffer : List Byte) : StreamIo Int :=
  .call (.write this.socket buffer) fun reply =>
    if reply.rc ≤ 0 then
      if reply.errno = Errno.econnreset ∨ reply.errno = Errno.enotconn then .done ErrorCode.eConnectionLost.code
      else .done ErrorCode.eUnknown.code
    else .done reply.rc

def setOption (this : Socket) (option : LineOption) (msecs : Int) : StreamIo Unit := this.setOption option msecs

end UnixSocket

namespace TcpSocket

def read (this : Socket) (buflen : Nat) : StreamIo ReadResult := this.read buflen

def write (this : Socket) (buffer : List Byte) : StreamIo Int :=
  .call (.write this.socket buffer) fun reply =>
    if reply.rc ≤ 0 then .done ErrorCode.eUnknown.code else .done reply.rc

def setOption (this : Socket) (option : LineOption) (msecs : Int) : StreamIo Unit := this.setOption option msecs

end TcpSocket

namespace Socket

/-- A call of the virtual `read`. -/
def virtualRead (this : Socket) (buflen : Nat) : StreamIo ReadResult :=
  match this.family with
  | .unix => UnixSocket.read this buflen
  | .inet => TcpSocket.read this buflen

def virtualWrite (this : Socket) (buffer : List Byte) : StreamIo Int :=
  match this.family with
  | .unix => UnixSocket.write this buffer
  | .inet => TcpSocket.write this buffer

def virtualSetOption (this : Socket) (option : LineOption) (msecs : Int) : StreamIo Unit :=
  match this.family with
  | .unix => UnixSocket.setOption this option msecs
  | .inet => TcpSocket.setOption this option msecs

end Socket

/-! ### The system -/

/-- What the system keeps for a thread: its `errno`, and for every descriptor the bytes that have arrived and were not
read, whether the peer has closed its end, and whether a receive timeout is set. -/
structure StreamSystem where
  errno : Int
  pending : Int → List Byte
  closed : Int → Bool
  timed : Int → Bool

namespace StreamSystem

/-- Fresh sockets. -/
def start (errno : Int) : StreamSystem :=
  { errno, pending := fun _ => [], closed := fun _ => false, timed := fun _ => false }

/-- Bytes of the peer arrive. -/
def arrive (os : StreamSystem) (fd : Int) (bytes : List Byte) : StreamSystem :=
  { os with pending := Function.update os.pending fd (os.pending fd ++ bytes) }

/-- The peer closes its end. -/
def hangUp (os : StreamSystem) (fd : Int) : StreamSystem := { os with closed := Function.update os.closed fd true }

/-- A call that is not one of a line fails. -/
def fail (os : StreamSystem) (errno : Int) : StreamSystem := { os with errno }

/-- The most bytes that Linux transfers in one call. -/
def maxTransfer : Nat := 0x7ffff000

/-- A blocking socket times out only with a timeout. -/
def MayFail (os : StreamSystem) (reply : StreamReply) : StreamCall → Prop
  | .read fd _ => reply.errno = Errno.eagain → os.timed fd
  | .write _ _ | .setsockopt _ _ _ _ => True

instance (os : StreamSystem) (reply : StreamReply) (call : StreamCall) : Decidable (os.MayFail reply call) :=
  match call with
  | .read fd _ => inferInstanceAs (Decidable (reply.errno = Errno.eagain → os.timed fd))
  | .write _ _ | .setsockopt _ _ _ _ => isTrue trivial

/-- A read hands over bytes that have arrived, and is at the end when there are none and the peer has closed. -/
def MayRead (os : StreamSystem) (reply : StreamReply) (fd : Int) (buflen : Nat) : Prop :=
  reply.rc = reply.bytes.length ∧ reply.bytes.length ≤ min buflen maxTransfer ∧ reply.bytes <+: os.pending fd ∧
    (reply.bytes = [] → buflen = 0 ∨ os.pending fd = [] ∧ os.closed fd)

instance (os : StreamSystem) (reply : StreamReply) (fd : Int) (buflen : Nat) :
    Decidable (os.MayRead reply fd buflen) :=
  inferInstanceAs (Decidable (_ ∧ _ ∧ _ ∧ (_ → _)))

def succeed (os : StreamSystem) (reply : StreamReply) : StreamCall → Option StreamSystem
  | .read fd buflen =>
    if os.MayRead reply fd buflen then
      some { os with pending := Function.update os.pending fd ((os.pending fd).drop reply.bytes.length) }
    else none
  | .write _ buffer => if reply.rc ≤ buffer.length then some os else none
  | .setsockopt fd .receiveTimeout tvSec tvUsec =>
    some { os with timed := Function.update os.timed fd (decide (tvSec ≠ 0 ∨ tvUsec ≠ 0)) }
  | .setsockopt _ .sendTimeout _ _ => some os

/-- The system after it has replied so to a call; `none` where that is not possible. -/
def respond (os : StreamSystem) (call : StreamCall) (reply : StreamReply) : Option StreamSystem :=
  if reply.rc < 0 then
    if os.MayFail reply call then some { os with errno := reply.errno } else none
  else if reply.errno = os.errno then os.succeed reply call
  else none

end StreamSystem

end Cppio
