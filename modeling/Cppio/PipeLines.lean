import Cppio.InprocLine
import Cppio.NamedPipes

/-!
# Named pipes as lines

`read`, `write` and `setOption` of `NamedPipeLine` in `src/win32/pipes.cpp`.  A call that fails makes them return 0.
-/

namespace Cppio

inductive FileCall where
  | readFile (file : Int) (buflen : Nat)
  | writeFile (file : Int) (buffer : List Byte)
deriving DecidableEq, Repr

/-- What a call returns, the bytes `ReadFile` puts into the buffer, and the number `WriteFile` gives of those it has
taken. -/
structure FileReply where
  value : Int
  data : List Byte
  written : Nat
deriving DecidableEq, Repr

abbrev FileIo (α : Type) := Interaction FileCall FileReply α

namespace NamedPipeLine

def read (this : NamedPipeLine) (buflen : Nat) : FileIo ReadResult :=
  .call (.readFile this.pipe buflen) fun reply =>
    if reply.value = 0 then .done (.ok []) else .done (.ok reply.data)

def write (this : NamedPipeLine) (buffer : List Byte) : FileIo Int :=
  .call (.writeFile this.pipe buffer) fun reply =>
    if reply.value = 0 then .done 0 else .done reply.written

def setOption (_this : NamedPipeLine) (_option : LineOption) (_msecs : Int) : FileIo Unit := .done ()

end NamedPipeLine

end Cppio
