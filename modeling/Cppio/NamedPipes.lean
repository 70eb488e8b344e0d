import Mathlib.Logic.Function.Basic
import Cppio.Types
import Cppio.Lib.CString
import Cppio.Lib.Decimal
import Cppio.Lib.Interaction
import Cppio.Lib.Transition

/-!
# Named pipes

The classes of `src/win32/pipes.cpp`, as programs that call Windows.  An acceptor listens at a pipe with its address;
for every connection it makes a pipe of its own, with the address and a counter as name, and tells the client that
name.  The counter is atomic.  `m_waitingPipe` is a member that calls of the same acceptor share, so a program loads
and stores it by calls as well.
-/

namespace Cppio

inductive PipeType where
  | message
  | byte
deriving DecidableEq, Repr

inductive PipeCall where
  /-- With `PIPE_ACCESS_DUPLEX`, `PIPE_WAIT` and `PIPE_UNLIMITED_INSTANCES`. -/
  | createNamedPipe (name : List Byte) (type : PipeType) (bufferSize : Nat)
  | connectNamedPipe (pipe : Int)
  | disconnectNamedPipe (pipe : Int)
  /-- To read and write, with `OPEN_EXISTING`. -/
  | createFile (name : List Byte)
  /-- To `PIPE_READMODE_MESSAGE`. -/
  | setNamedPipeHandleState (pipe : Int)
  | readFile (pipe : Int) (size : Nat)
  | writeFile (pipe : Int) (data : List Byte)
  | flushFileBuffers (pipe : Int)
  | closeHandle (handle : Int)
  | createEvent
  | waitForSingleObject (event : Int) (msec : Int)
  | getOverlappedResult (pipe : Int)
  | cancelIo (pipe : Int)
  | getLastError
  | loadWaitingPipe
  | storeWaitingPipe (pipe : Int)
deriving DecidableEq, Repr

/-- What a call returns, and the bytes `ReadFile` puts into the buffer. -/
structure PipeReply where
  value : Int
  data : List Byte
deriving DecidableEq, Repr

abbrev Windows (α : Type) := Interaction PipeCall PipeReply α

/-- `INVALID_HANDLE_VALUE`. -/
def invalidHandle : Int := -1

def pipePrefix : List Byte := ascii "\\\\.\\pipe\\"

/-- `(pipePrefix + address).c_str()`. -/
def pipeName (address : List Byte) : List Byte := CString.contents (pipePrefix ++ address)

structure NamedPipeLine where
  /-- `m_address`. -/
  address : List Byte
  /-- `m_pipe`. -/
  pipe : Int
deriving DecidableEq, Repr

structure NamedPipeAcceptor where
  /-- `m_address`. -/
  address : List Byte
  /-- `m_pipe`. -/
  pipe : Int
deriving DecidableEq, Repr

/-- Throw with the last error. -/
def throwLastError {α : Type} (what : String) : Windows (Except IoException α) :=
  .call .getLastError fun error => .done (.error ⟨what ++ toString error.value⟩)

namespace NamedPipeLine

/-- The constructor from the point on where the pipe of the acceptor is open and in message mode. -/
def openTold (serverPipe : Int) : Windows (Except IoException NamedPipeLine) :=
  .call (.readFile serverPipe 1024) fun read =>
    .call (.closeHandle serverPipe) fun _ =>
      if read.data = [] then .done (.error ⟨"Invalid new address"⟩)
      else
        .call (.createFile (pipeName read.data)) fun pipe =>
          if pipe.value = invalidHandle then throwLastError "[3]Unable to open pipe: "
          else .done (.ok ⟨read.data, pipe.value⟩)

/-- The constructor of the client. -/
def new (address : List Byte) : Windows (Except IoException NamedPipeLine) :=
  .call (.createFile (pipeName address)) fun serverPipe =>
    if serverPipe.value = invalidHandle then throwLastError "[1]Unable to open pipe: "
    else
      .call (.setNamedPipeHandleState serverPipe.value) fun set =>
        if set.value = 0 then
          .call .getLastError fun error =>
            if error.value ≠ 0 then throwLastError "[2]Unable to open pipe: " else openTold serverPipe.value
        else openTold serverPipe.value

end NamedPipeLine

/-- `connectPipe`; the errors are `ERROR_PIPE_CONNECTED` and `ERROR_IO_PENDING`. -/
def connectPipe (pipe msec : Int) : Windows Bool :=
  .call .createEvent fun event =>
    .call (.connectNamedPipe pipe) fun connected =>
      Interaction.bind
        (if connected.value = 0 then
          .call .getLastError fun error =>
            if error.value = 535 then .done true
            else if error.value = 997 then
              .call (.waitForSingleObject event.value msec) fun wait =>
                if wait.value = 0 then .call (.getOverlappedResult pipe) fun ret => .done (ret.value ≠ 0)
                else .call (.cancelIo pipe) fun _ => .done false
            else .done false
        else .done true)
        fun ret => .call (.closeHandle event.value) fun _ => .done ret

namespace NamedPipeAcceptor

/-- The constructor. -/
def new (address : List Byte) : Windows (Except IoException NamedPipeAcceptor) :=
  .call (.createNamedPipe (pipeName address) .message 8192) fun pipe =>
    if pipe.value = invalidHandle then throwLastError "Unable to create pipe: "
    else .done (.ok ⟨address, pipe.value⟩)

/-- `CloseHandle(m_waitingPipe); return nullptr;` -/
def giveUp : Windows (Option NamedPipeLine) :=
  .call .loadWaitingPipe fun waitingPipe => .call (.closeHandle waitingPipe.value) fun _ => .done none

/-- `m_address + to_string(m_counter.fetch_add(1))`, for the value of the counter. -/
def newPipeAddress (this : NamedPipeAcceptor) (counter : Int32) : List Byte :=
  this.address ++ Decimal.intText counter.toInt

/-- `waitConnection`, after `fetch_add` returned the counter. -/
def waitConnection (this : NamedPipeAcceptor) (counter : Int32) (timeoutInMs : Int) :
    Windows (Option NamedPipeLine) :=
  .call (.createNamedPipe (pipeName (this.newPipeAddress counter)) .byte 65536) fun created =>
    .call (.storeWaitingPipe created.value) fun _ =>
      (connectPipe this.pipe timeoutInMs).bind fun ret =>
        if ret = false then giveUp
        else
          .call (.writeFile this.pipe (this.newPipeAddress counter)) fun _ =>
            .call (.flushFileBuffers this.pipe) fun _ =>
              .call (.disconnectNamedPipe this.pipe) fun _ =>
                .call .loadWaitingPipe fun waitingPipe =>
                  (connectPipe waitingPipe.value timeoutInMs).bind fun ret =>
                    if ret = false then giveUp
                    else .call .loadWaitingPipe fun pipe => .done (some ⟨this.newPipeAddress counter, pipe.value⟩)

end NamedPipeAcceptor

/-! ### Acceptors at work -/

/-- The members `m_counter` and `m_waitingPipe` of the acceptors, and the calls of `waitConnection` that are under
way, each with its acceptor and what it has still to do. -/
structure PipeServer (ι : Type) where
  counter : ι → Int32
  waitingPipe : ι → Int
  calls : List (ι × Windows (Option NamedPipeLine))

/-- A call of `waitConnection` begins, or Windows replies to the call with index `k`. -/
inductive PipeStep (ι : Type) where
  | waitConnection (i : ι) (timeoutInMs : Int)
  | reply (k : Nat) (reply : PipeReply)

/-- A name is generated for a connection, or a call is made and replied to. -/
inductive PipeEvent (ι : Type) where
  | generated (i : ι) (newPipeAddress : List Byte)
  | called (i : ι) (call : PipeCall) (reply : PipeReply)

namespace PipeServer

variable {ι : Type} [DecidableEq ι]

/-- The members of the acceptor `i` after a call; Windows may reply anything. -/
def respond (s : PipeServer ι) (i : ι) : PipeCall → PipeReply → Option (PipeServer ι)
  | .loadWaitingPipe, reply => if reply.value = s.waitingPipe i then some s else none
  | .storeWaitingPipe pipe, _ => some { s with waitingPipe := Function.update s.waitingPipe i pipe }
  | _, _ => some s

def next (acceptor : ι → NamedPipeAcceptor) (s : PipeServer ι) :
    PipeStep ι → Option (PipeServer ι × List (PipeEvent ι))
  | .waitConnection i timeoutInMs =>
    some ({ s with counter := Function.update s.counter i (s.counter i + 1),
                   calls := s.calls ++ [(i, (acceptor i).waitConnection (s.counter i) timeoutInMs)] },
      [.generated i ((acceptor i).newPipeAddress (s.counter i))])
  | .reply k reply =>
    match s.calls[k]? with
    | some (i, .call c rest) =>
      (s.respond i c reply).map fun s' => ({ s' with calls := s.calls.set k (i, rest reply) }, [.called i c reply])
    | _ => none

def machine (acceptor : ι → NamedPipeAcceptor) : Machine (PipeServer ι) (PipeStep ι) (PipeEvent ι) := ⟨next acceptor⟩

/-- No call is under way; `m_counter` and `m_waitingPipe` are not initialised. -/
def start (counter : ι → Int32) (waitingPipe : ι → Int) : PipeServer ι :=
  { counter := counter, waitingPipe := waitingPipe, calls := [] }

end PipeServer

end Cppio
