import Cppio.Types
import Cppio.Lib.CString
import Cppio.Lib.Interaction

/-!
# Sockets

The classes of `src/posix/io_socket.cpp`, as programs that make system calls.  A `UnixSocket` copies its address into
the 14 bytes `sa_data` of a local variable and passes on the name that `strlen` finds there, so the program is given
what can be read behind that variable; where `strlen` finds no end, it crashes.
-/

namespace Cppio

/-- `AF_UNIX` and `AF_INET`. -/
inductive Family where
  | unix
  | inet
deriving DecidableEq, Repr

/-- The name in a `sockaddr`: the bytes of `sa_data` up to the length that is passed, or the texts of the address and
of the port that `inet_addr` and `atoi` convert.  Without an address it is `INADDR_ANY`. -/
inductive SocketName where
  | unix (path : List Byte)
  | inet (host : Option (List Byte)) (port : List Byte)
deriving DecidableEq, Repr

inductive Syscall where
  | socket (family : Family)
  /-- With `SO_REUSEADDR`. -/
  | setsockopt (fd : Int)
  | bind (fd : Int) (name : SocketName)
  | listen (fd : Int) (backlog : Nat)
  | accept (fd : Int)
  | connect (fd : Int) (name : SocketName)
  | close (fd : Int)
  | unlink (path : List Byte)
deriving DecidableEq, Repr

/-- What a system call returns, and `errno`. -/
structure Reply where
  rc : Int
  errno : Int
deriving DecidableEq, Repr

abbrev Sys (α : Type) := Interaction Syscall Reply α

/-- The members of all classes here, and which of the two families the class is for. -/
structure Socket where
  family : Family
  /-- `m_address`. -/
  address : List Byte
  /-- `m_socket`. -/
  socket : Int
deriving DecidableEq, Repr

namespace Socket

/-- The constructors of `UnixSocket` and `TcpSocket` from an address. -/
def new (family : Family) (address : List Byte) : Sys (Except IoException Socket) :=
  .call (.socket family) fun reply =>
    if reply.rc < 0 then .done (.error ⟨"Unable to create socket: " ++ toString reply.rc⟩)
    else .done (.ok ⟨family, address, reply.rc⟩)

/-- `waitConnection`; the line it makes gets no address. -/
def waitConnection (this : Socket) : Sys (Option Socket) :=
  .call (.accept this.socket) fun reply =>
    if reply.rc > 0 then .done (some ⟨this.family, [], reply.rc⟩) else .done none

/-- `createClient`: if `connect` throws, the new object is not deleted. -/
def createClient (family : Family) (connect : Socket → Sys (Except IoException Unit)) (address : List Byte) :
    Sys (Except IoException Socket) :=
  (new family address).bind fun
    | .error e => .done (.error e)
    | .ok socket => (connect socket).map fun connected => connected.map fun _ => socket

/-- The destructors of the classes for TCP. -/
def close (this : Socket) : Sys Unit := .call (.close this.socket) fun _ => .done ()

/-- The destructors of the classes for Unix sockets. -/
def closeAndUnlink (this : Socket) : Sys Unit :=
  .call (.close this.socket) fun _ => .call (.unlink (CString.contents this.address)) fun _ => .done ()

end Socket

/-- What a process does with lines and acceptors: the methods are given what can be read behind their `serverName`,
and the replies of the system. -/
inductive SocketStep where
  | createServer (behind address : List Byte) (replies : List Reply)
  | createClient (behind address : List Byte) (replies : List Reply)
  | waitConnection (acceptor : Socket) (replies : List Reply)
  | destroyLine (line : Socket) (replies : List Reply)
  | destroyAcceptor (acceptor : Socket) (replies : List Reply)
deriving DecidableEq, Repr

/-! ### Unix sockets -/

/-- What can be read at `serverName.sa_data` after the `strncpy`: the field and what lies behind it. -/
def saData (address behind : List Byte) : List Byte := CString.strncpy address 14 ++ behind

/-- `strlen(serverName.sa_data)`, with its loads. -/
def nameLength (address behind : List Byte) : Probe Byte (Option Nat) :=
  CString.strlen (saData address behind).length 0

/-- The name that is passed on: `sa_data` up to the length given. -/
def passedName (address behind : List Byte) : Option (List Byte) :=
  ((nameLength address behind).run ((saData address behind).getD · 0)).map (saData address behind).take

namespace UnixSocket

/-- `UnixSocket::~UnixSocket`. -/
def destroy (this : Socket) : Sys Unit := this.closeAndUnlink

def connect (behind : List Byte) (this : Socket) : Sys (Except IoException Unit) :=
  match passedName this.address behind with
  | none => .crash
  | some path =>
    .call (.connect this.socket (.unix path)) fun reply =>
      if reply.rc < 0 then
        .done (.error ⟨"Unable to connect to socket: " ++ toString reply.rc ++ "/" ++ toString reply.errno⟩)
      else .done (.ok ())

end UnixSocket

namespace UnixSocketAcceptor

/-- The constructor. -/
def new (behind address : List Byte) : Sys (Except IoException Socket) :=
  .call (.socket .unix) fun created =>
    if created.rc < 0 then .done (.error ⟨"Unable to create socket: " ++ toString created.rc⟩)
    else
      match passedName address behind with
      | none => .crash
      | some path =>
        .call (.bind created.rc (.unix path)) fun bound =>
          if bound.rc < 0 then .done (.error ⟨"Unable to bind socket: " ++ toString bound.rc⟩)
          else
            .call (.listen created.rc 10) fun listened =>
              if listened.rc < 0 then
                .call (.close created.rc) fun _ =>
                  .call (.unlink (CString.contents address)) fun _ =>
                    .done (.error ⟨"Unable to listen socket: " ++ toString listened.rc⟩)
              else .done (.ok ⟨.unix, address, created.rc⟩)

/-- `UnixSocketAcceptor::~UnixSocketAcceptor`. -/
def destroy (this : Socket) : Sys Unit := this.closeAndUnlink

end UnixSocketAcceptor

namespace UnixSocketFactory

def supportsScheme (scheme : List Byte) : Bool := scheme == ascii "local"

def createClient (behind address : List Byte) : Sys (Except IoException Socket) :=
  Socket.createClient .unix (UnixSocket.connect behind) address

def createServer (behind address : List Byte) : Sys (Except IoException Socket) :=
  UnixSocketAcceptor.new behind address

end UnixSocketFactory

/-! ### TCP sockets -/

/-- `m_address.substr(0, semicolon)`. -/
def hostOf (address : List Byte) : List Byte := address.takeWhile (· ≠ 58)

/-- `m_address.substr(semicolon + 1)`, the whole address if it has no `:`. -/
def portOf (address : List Byte) : List Byte :=
  if 58 ∈ address then (address.dropWhile (· ≠ 58)).tail else address

namespace TcpSocket

/-- `TcpSocket::~TcpSocket`. -/
def destroy (this : Socket) : Sys Unit := this.close

def connect (this : Socket) : Sys (Except IoException Unit) :=
  .call (.connect this.socket (.inet (some (hostOf this.address)) (portOf this.address))) fun reply =>
    if reply.rc < 0 then
      .done (.error ⟨"Unable to connect socket: " ++ toString reply.rc ++ "/" ++ toString reply.errno⟩)
    else .done (.ok ())

end TcpSocket

namespace TcpSocketAcceptor

/-- The constructor. -/
def new (address : List Byte) : Sys (Except IoException Socket) :=
  .call (.socket .inet) fun created =>
    if created.rc < 0 then .done (.error ⟨"Unable to create socket: " ++ toString created.rc⟩)
    else
      .call (.setsockopt created.rc) fun set =>
        if set.rc < 0 then .done (.error ⟨"Unable to set socket option: " ++ toString created.rc⟩)
        else
          let host := if hostOf address ≠ ascii "*" then some (hostOf address) else none
          .call (.bind created.rc (.inet host (portOf address))) fun bound =>
            if bound.rc < 0 then
              .done (.error ⟨"Unable to bind tcp socket: " ++ toString bound.rc ++ "/" ++ toString bound.errno⟩)
            else
              .call (.listen created.rc 10) fun listened =>
                if listened.rc < 0 then
                  .call (.close created.rc) fun _ =>
                    .done (.error ⟨"Unable to listen socket: " ++ toString listened.rc⟩)
                else .done (.ok ⟨.inet, address, created.rc⟩)

/-- `TcpSocketAcceptor::~TcpSocketAcceptor`. -/
def destroy (this : Socket) : Sys Unit := this.close

end TcpSocketAcceptor

namespace TcpSocketFactory

def supportsScheme (scheme : List Byte) : Bool := scheme == ascii "tcp"

def createClient (address : List Byte) : Sys (Except IoException Socket) :=
  Socket.createClient .inet TcpSocket.connect address

def createServer (address : List Byte) : Sys (Except IoException Socket) := TcpSocketAcceptor.new address

end TcpSocketFactory

end Cppio
