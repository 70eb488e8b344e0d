import Cppio.Lib.Monitor
import Cppio.RingBufferFifo

/-!
# The blocking queue

`DataQueue` of `src/common/inproc.cpp` in its blocking build.  Any number of threads call its methods; every access to
the buffer or to the flag, every operation on the mutex and every notification is a step of its own, and between two
steps of one thread the others may take any number of steps.

A point of a method is named after what the thread does next.  `relock` is inside a wait: the thread is asleep there,
or was woken and needs the mutex again; the time of a `wait_for` may end at any moment (`expire`).  The waits with a
predicate are the loops of the C++ standard: the predicate is tested before every sleep, and once more when the time
is over.
-/

namespace Cppio

/-- The condition variables of a `DataQueue`. -/
inductive Condition where
  | readCondition
  | writeCondition
deriving DecidableEq, Repr

structure DataQueue (N : Nat) where
  buffer : ByteRing N
  connected : Bool

namespace DataQueue

variable {N : Nat}

/-- A call of a method. -/
inductive Call where
  | read (buflen : Nat)
  | readWithTimeout (buflen : Nat) (timeout : Int)
  | write (buffer : List Byte)
  | setConnectionFlag (c : Bool)
deriving DecidableEq, Repr

/-- What a call returns: bytes in the caller's buffer, a number of bytes, an error code, or nothing. -/
inductive Result where
  | bytes (bs : List Byte)
  | count (n : Nat)
  | error (e : ErrorCode)
  | void
deriving DecidableEq, Repr

/-- What a thread does next in a call. -/
inductive Stage where
  | enter
  | notifyWriters
  | size
  | test
  | connected
  | predicate
  | wait
  | relock
  | expired
  | lastPredicate
  | lost
  | recheck
  | recheckConnected
  | copy
  | notifyReaders (n : Nat)
  | testFlag
  | storeFlag
  | signalRead
  | signalWrite
  | leave (r : Result)
deriving DecidableEq, Repr

inductive Point where
  | idle
  | busy (c : Call) (st : Stage)
deriving DecidableEq, Repr

/-- Accesses to the buffer, and the return of a call. -/
inductive Event where
  | put (bs : List Byte)
  | took (bs : List Byte)
  | ret (c : Call) (r : Result)
deriving DecidableEq, Repr

abbrev Action (N : Nat) := Monitor.Action Unit Condition Point (DataQueue N) Event

def availableReadSize (q : DataQueue N) : Nat := q.buffer.ring.availableReadSize

def availableWriteSize (q : DataQueue N) : Nat := q.buffer.ring.availableWriteSize

/-- A step that leaves the queue as it is. -/
def goto (q : DataQueue N) (c : Call) (st : Stage) : Action N := .run q [] (.busy c st)

/-- The last step of a method with a lock: the mutex is unlocked and the call returns. -/
def unlock (c : Call) (r : Result) : Action N := .unlock () [.ret c r] .idle

/-- `m_buffer.read(buffer, buflen)`. -/
def copyOut (q : DataQueue N) (c : Call) (buflen : Nat) : Action N :=
  let bs := (q.buffer.ring.read buflen).bytes
  .run { q with buffer := q.buffer.read buflen } [.took bs] (.busy c (.leave (.bytes bs)))

/-- `DataQueue::read`. -/
def readCode (buflen : Nat) (q : DataQueue N) : Stage → Action N
  | .enter => .lock () (.busy (.read buflen) .notifyWriters)
  | .notifyWriters => .notifyAll .writeCondition (.busy (.read buflen) .test)
  | .test => q.goto (.read buflen) (if q.availableReadSize = 0 then .connected else .copy)
  | .connected => q.goto (.read buflen) (if q.connected then .wait else .leave (.error .eConnectionLost))
  | .wait => .wait .readCondition () (.busy (.read buflen) .relock)
  | .relock => .lock () (.busy (.read buflen) .recheck)
  | .recheck => q.goto (.read buflen) (if q.availableReadSize = 0 then .recheckConnected else .test)
  | .recheckConnected => q.goto (.read buflen) (if q.connected then .test else .leave (.error .eConnectionLost))
  | .copy => q.copyOut (.read buflen) buflen
  | .leave r => unlock (.read buflen) r
  | _ => .stop

/-- `DataQueue::readWithTimeout`. -/
def readWithTimeoutCode (buflen : Nat) (timeout : Int) (q : DataQueue N) : Stage → Action N
  | .enter => .lock () (.busy (.readWithTimeout buflen timeout) .notifyWriters)
  | .notifyWriters => .notifyAll .writeCondition (.busy (.readWithTimeout buflen timeout) .test)
  | .test => q.goto (.readWithTimeout buflen timeout) (if q.availableReadSize = 0 then .connected else .copy)
  | .connected =>
    q.goto (.readWithTimeout buflen timeout) (if q.connected then .predicate else .leave (.error .eConnectionLost))
  | .predicate => q.goto (.readWithTimeout buflen timeout) (if 0 < q.availableReadSize then .recheck else .wait)
  | .wait => .wait .readCondition () (.busy (.readWithTimeout buflen timeout) .relock)
  | .relock => .lock () (.busy (.readWithTimeout buflen timeout) .predicate)
  | .expired => .lock () (.busy (.readWithTimeout buflen timeout) .lastPredicate)
  | .lastPredicate => q.goto (.readWithTimeout buflen timeout) (if 0 < q.availableReadSize then .recheck else .lost)
  | .lost =>
    q.goto (.readWithTimeout buflen timeout) (.leave (.error (if q.connected then .eTimeout else .eConnectionLost)))
  | .recheck =>
    q.goto (.readWithTimeout buflen timeout) (if q.availableReadSize = 0 then .recheckConnected else .copy)
  | .recheckConnected =>
    q.goto (.readWithTimeout buflen timeout) (if q.connected then .copy else .leave (.error .eConnectionLost))
  | .copy => q.copyOut (.readWithTimeout buflen timeout) buflen
  | .leave r => unlock (.readWithTimeout buflen timeout) r
  | _ => .stop

/-- `DataQueue::write`. -/
def writeCode (buffer : List Byte) (q : DataQueue N) : Stage → Action N
  | .enter => .lock () (.busy (.write buffer) .size)
  | .size =>
    q.goto (.write buffer) (if q.buffer.ring.size ≤ buffer.length then .leave (.error .eTooBigBuffer) else .test)
  | .test => q.goto (.write buffer) (if q.availableWriteSize = 0 then .connected else .copy)
  | .connected => q.goto (.write buffer) (if q.connected then .predicate else .leave (.error .eConnectionLost))
  | .predicate => q.goto (.write buffer) (if 0 < q.availableWriteSize then .recheck else .wait)
  | .wait => .wait .writeCondition () (.busy (.write buffer) .relock)
  | .relock => .lock () (.busy (.write buffer) .predicate)
  | .recheck => q.goto (.write buffer) (if q.availableWriteSize = 0 then .recheckConnected else .copy)
  | .recheckConnected => q.goto (.write buffer) (if q.connected then .copy else .leave (.error .eConnectionLost))
  | .copy =>
    let ret := (q.buffer.ring.write buffer).count
    .run { q with buffer := q.buffer.write buffer } [.put (buffer.take ret)]
      (.busy (.write buffer) (.notifyReaders ret))
  | .notifyReaders ret => .notifyAll .readCondition (.busy (.write buffer) (.leave (.count ret)))
  | .leave r => unlock (.write buffer) r
  | _ => .stop

/-- `DataQueue::setConnectionFlag`, which takes no lock. -/
def setConnectionFlagCode (c : Bool) (q : DataQueue N) : Stage → Action N
  | .enter => q.goto (.setConnectionFlag c) (if c then .storeFlag else .testFlag)
  | .testFlag => q.goto (.setConnectionFlag c) (if q.connected then .storeFlag else .leave .void)
  | .storeFlag =>
    .run { q with connected := c } [] (.busy (.setConnectionFlag c) (if c then .leave .void else .signalRead))
  | .signalRead => .notifyAll .readCondition (.busy (.setConnectionFlag c) .signalWrite)
  | .signalWrite => .notifyAll .writeCondition (.busy (.setConnectionFlag c) (.leave .void))
  | .leave r => .run q [.ret (.setConnectionFlag c) r] .idle
  | _ => .stop

def code : Point → DataQueue N → Action N
  | .idle, _ => .stop
  | .busy (.read buflen) st, q => readCode buflen q st
  | .busy (.readWithTimeout buflen timeout) st, q => readWithTimeoutCode buflen timeout q st
  | .busy (.write buffer) st, q => writeCode buffer q st
  | .busy (.setConnectionFlag c) st, q => setConnectionFlagCode c q st

/-- A queue whose threads make the calls in `calls`. -/
def program (N : Nat) (calls : Call → Bool) : Monitor.Program Unit Condition Point (DataQueue N) Event where
  isIdle p := p == .idle
  entry
    | .busy c .enter => calls c
    | _ => false
  code := code
  expire
    | .busy (.readWithTimeout buflen timeout) .relock => some (.busy (.readWithTimeout buflen timeout) .expired)
    | _ => none

/-- The calls on a queue that stays connected. -/
def dataCalls : Call → Bool
  | .setConnectionFlag _ => false
  | _ => true

/-- A queue in a run: threads of any type `τ`. -/
abbrev State (τ : Type) (N : Nat) := Monitor.State τ Unit Condition Point (DataQueue N)

/-- What is seen of a run. -/
abbrev Trace (τ : Type) := List (τ × Monitor.Obs Point Event)

/-- The constructor. -/
def new (N : Nat) (hN : 1 ≤ N) : DataQueue N := { buffer := .new N hN, connected := false }

/-- A new queue after `setConnectionFlag(true)`, before any other thread knows it. -/
def connectedNew (N : Nat) (hN : 1 ≤ N) : DataQueue N := { new N hN with connected := true }

/-! ### The lock discipline -/

/-- The points of a method where its thread holds the mutex. -/
def Stage.locked : Call → Stage → Bool
  | .setConnectionFlag _, _ => false
  | _, .enter | _, .relock | _, .expired => false
  | _, _ => true

def holds : Point → Unit → Prop
  | .idle, _ => False
  | .busy c st, _ => st.locked c = true

/-- The condition variable a thread may be asleep on. -/
def sleepsOn : Point → Option Condition
  | .busy (.read _) .relock | .busy (.readWithTimeout _ _) .relock => some .readCondition
  | .busy (.write _) .relock => some .writeCondition
  | _ => none

theorem disciplined (calls : Call → Bool) : (program N calls).Disciplined holds sleepsOn where
  idle := by
    intro p hp
    cases p with
    | idle => exact ⟨fun _ h => h, rfl⟩
    | busy c st => cases hp
  entry := by
    intro p hp m
    cases p with
    | idle => exact id
    | busy c st =>
      cases st with
      | enter => cases c <;> exact Bool.false_ne_true
      | _ => cases hp
  code := by
    intro p q k q' es h
    cases p with
    | idle => cases h
    | busy c st =>
      cases c <;> cases st <;> cases h <;>
        simp only [program, code, readCode, readWithTimeoutCode, writeCode, setConnectionFlagCode, goto, unlock,
          copyOut, Monitor.Action.Legal, Monitor.Action.held, holds] <;>
        refine ⟨by trivial, fun m => ?_⟩ <;> try split
      all_goals simp [Stage.locked]
  wait := by
    intro p q c m k h
    cases p with
    | idle => cases h
    | busy call st => cases call <;> cases st <;> cases h <;> rfl
  expire := by
    intro p k h m
    cases p with
    | idle => cases h
    | busy call st =>
      cases call <;> cases st <;> cases h
      exact Iff.rfl

end DataQueue

end Cppio
