import Mathlib.Data.Finset.Insert
import Mathlib.Logic.Function.Basic
import Cppio.Types
import Cppio.Lib.Interaction
import Cppio.Lib.Transition

/-!
# The poller

`SelectPoller` of `src/common/select_poller.cpp`.  The lines are registered with the events they are polled for;
`poll` hands the native handles to `select` in three sets of descriptors, which are zeroed every time, and keeps the
events of every line until the next call.  Where a null handle is dereferenced, or a descriptor has no place in an
`fd_set`, the behaviour is undefined and the program crashes.
-/

namespace Cppio

/-- `cppio::LineEvent`: an `int` whose bits are the events. -/
abbrev LineEvent := BitVec 32

namespace LineEvent

def none : LineEvent := 0
def read : LineEvent := 1 <<< 0
def write : LineEvent := 1 <<< 1
def error : LineEvent := 1 <<< 2

end LineEvent

/-! ### `select` -/

/-- `FD_SETSIZE`. -/
def fdSetSize : Int := 1024

/-- The descriptors in an `fd_set`. -/
abbrev FdSet := Finset Int

/-- `FD_SET`. -/
def fdSet (fd : Int) (fds : FdSet) : Option FdSet :=
  if 0 ≤ fd ∧ fd < fdSetSize then some (insert fd fds) else none

/-- `FD_ISSET`. -/
def fdIsSet (fd : Int) (fds : FdSet) : Option Bool :=
  if 0 ≤ fd ∧ fd < fdSetSize then some (fd ∈ fds) else none

/-- `m_readfds`, `m_writefds` and `m_errorfds`. -/
structure FdSets where
  readfds : FdSet
  writefds : FdSet
  errorfds : FdSet
deriving DecidableEq

/-- The arguments of `select`, with the timeout in seconds and microseconds. -/
structure SelectCall where
  nfds : Int
  fds : FdSets
  sec : Int
  usec : Int
deriving DecidableEq

/-- What `select` returns, what it leaves in the sets, and `errno`. -/
structure SelectReply where
  result : Int
  fds : FdSets
  errno : Int
deriving DecidableEq

/-- `select` leaves a part of every set, and returns a positive number if something is left. -/
def selects (_ : Unit) (call : SelectCall) (reply : SelectReply) : Option Unit :=
  if reply.fds.readfds ⊆ call.fds.readfds ∧ reply.fds.writefds ⊆ call.fds.writefds ∧
      reply.fds.errorfds ⊆ call.fds.errorfds ∧
      (0 ≤ reply.result → (0 < reply.result ↔
        reply.fds.readfds.Nonempty ∨ reply.fds.writefds.Nonempty ∨ reply.fds.errorfds.Nonempty)) then
    some ()
  else none

/-! ### The methods -/

/-- The members; `m_events` is a map. -/
structure SelectPoller (ι : Type) where
  pollables : List (ι × LineEvent)
  events : ι → Option LineEvent

/-- What the first loop of `poll` collects. -/
structure Asked where
  fds : FdSets
  maxFd : Int

namespace SelectPoller

variable {ι : Type} [DecidableEq ι]

def new : SelectPoller ι := { pollables := [], events := fun _ => none }

/-- `addLine`, which throws `LineIsNotPollable`.  The native handle of a line is an `int` behind a pointer, `none`
where the pointer is null. -/
def addLine (nativeHandle : ι → Option Int) (this : SelectPoller ι) (line : ι) (events : LineEvent) :
    Except IoException (SelectPoller ι) :=
  if nativeHandle line = none then .error ⟨""⟩ else .ok { this with pollables := this.pollables ++ [(line, events)] }

def removeLine (this : SelectPoller ι) (line : ι) : SelectPoller ι :=
  { this with pollables := this.pollables.eraseP fun other => other.1 = line }

/-- `FD_SET` for a descriptor that is polled for the event of the mask. -/
def setIf (events mask : LineEvent) (fd : Int) (fds : FdSet) : Option FdSet :=
  if events &&& mask ≠ .none then fdSet fd fds else some fds

/-- The body of the first loop of `poll`. -/
def ask (nativeHandle : ι → Option Int) (asked : Asked) (pollable : ι × LineEvent) : Option Asked := do
  let events := pollable.2
  let handle ← nativeHandle pollable.1
  let readfds ← setIf events .read handle asked.fds.readfds
  let writefds ← setIf events .write handle asked.fds.writefds
  let errorfds ← setIf events .error handle asked.fds.errorfds
  return { fds := { readfds := readfds, writefds := writefds, errorfds := errorfds },
           maxFd := if handle > asked.maxFd then handle else asked.maxFd }

/-- The first loop of `poll`. -/
def askAll (nativeHandle : ι → Option Int) (pollables : List (ι × LineEvent)) : Option Asked :=
  pollables.foldlM (ask nativeHandle) { fds := ⟨∅, ∅, ∅⟩, maxFd := 0 }

/-- The body of the second loop of `poll`. -/
def report (nativeHandle : ι → Option Int) (fds : FdSets) (found : ι → Option LineEvent) (pollable : ι × LineEvent) :
    Option (ι → Option LineEvent) := do
  let handle ← nativeHandle pollable.1
  let read ← fdIsSet handle fds.readfds
  let write ← fdIsSet handle fds.writefds
  let error ← fdIsSet handle fds.errorfds
  let events := LineEvent.none
  let events := if read then events ||| .read else events
  let events := if write then events ||| .write else events
  let events := if error then events ||| .error else events
  return Function.update found pollable.1 (some events)

/-- The second loop of `poll`. -/
def reportAll (nativeHandle : ι → Option Int) (fds : FdSets) (pollables : List (ι × LineEvent)) :
    Option (ι → Option LineEvent) :=
  pollables.foldlM (report nativeHandle fds) fun _ => none

/-- `poll`, which returns the poller as well. -/
def poll (nativeHandle : ι → Option Int) (this : SelectPoller ι) (timeout : Int) :
    Interaction SelectCall SelectReply (Except IoException Bool × SelectPoller ι) :=
  match askAll nativeHandle this.pollables with
  | none => .crash
  | some asked =>
    let secs := timeout.tdiv 1000
    let usec := (timeout - secs * 1000) * 1000
    .call { nfds := asked.maxFd + 1, fds := asked.fds, sec := secs, usec := usec } fun reply =>
      if reply.result < 0 then
        .done (.error ⟨"Polling error, errno = " ++ toString reply.errno⟩, { this with events := fun _ => none })
      else if reply.result > 0 then
        match reportAll nativeHandle reply.fds this.pollables with
        | none => .crash
        | some found => .done (.ok true, { this with events := found })
      else .done (.ok false, { this with events := fun _ => none })

def eventsForLine (this : SelectPoller ι) (line : ι) : LineEvent := (this.events line).getD .none

end SelectPoller

/-! ### Runs of calls -/

/-- A call of a poller, with the reply of `select`. -/
inductive PollerCall (ι : Type) where
  | addLine (line : ι) (events : LineEvent)
  | removeLine (line : ι)
  | poll (timeout : Int) (reply : SelectReply)
deriving DecidableEq

/-- A line was registered, a registration was cancelled, or `poll` returned or threw. -/
inductive PollerEvent (ι : Type) where
  | added (line : ι) (events : LineEvent)
  | removed (line : ι)
  | polled (outcome : Except IoException Bool)

namespace SelectPoller

variable {ι : Type} [DecidableEq ι]

def next (nativeHandle : ι → Option Int) (s : SelectPoller ι) :
    PollerCall ι → Option (SelectPoller ι × List (PollerEvent ι))
  | .addLine line events =>
    match addLine nativeHandle s line events with
    | .ok s' => some (s', [.added line events])
    | .error _ => some (s, [])
  | .removeLine line => some (s.removeLine line, [.removed line])
  | .poll timeout reply =>
    ((poll nativeHandle s timeout).play selects () [reply]).map fun outcome => (outcome.1.2, [.polled outcome.1.1])

def machine (nativeHandle : ι → Option Int) : Machine (SelectPoller ι) (PollerCall ι) (PollerEvent ι) :=
  ⟨next nativeHandle⟩

end SelectPoller

end Cppio
