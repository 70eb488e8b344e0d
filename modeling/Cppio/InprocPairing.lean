import Cppio.InprocLine
import Cppio.InprocRegistry

/-!
# Clients and acceptors

`InprocLineFactory::createClient` and `InprocAcceptor::waitConnection` of `src/common/inproc.cpp`, called by any
number of threads.  A client puts its line into the registry and waits, under the mutex of the line, until the line
has its queues.  An acceptor scans the registry under `gs_mutex` and, still under it, constructs a line of its own
with two new queues and hands them over to the client's line, under the mutex of that line.

Lines and queues are numbered in the order of their creation, and a number stands for a pointer.  The clock is not
modelled: the time of a `waitConnection` with a timeout that is not negative may be over at any test of it (`expire`),
and a `wait_for` that ends in time is like one that is woken.
-/

namespace Cppio

/-- The queues an `InprocLine` reads from and writes to. -/
structure Line where
  inQueue : Option Nat
  outQueue : Option Nat
deriving DecidableEq, Repr

inductive Direction where
  | incoming
  | outgoing
deriving DecidableEq, Repr

namespace Line

/-- `m_in` or `m_out`. -/
def queue (line : Line) : Direction → Option Nat
  | .incoming => line.inQueue
  | .outgoing => line.outQueue

def setQueue (line : Line) (queue : Option Nat) : Direction → Line
  | .incoming => { line with inQueue := queue }
  | .outgoing => { line with outQueue := queue }

end Line

/-- The registry, and the lines and queues of the process. -/
structure Inproc where
  registry : Registry
  lines : List Line
  queues : List (DataQueue InprocLine.queueSize)

namespace Inproc

/-- `gs_mutex` and the `m_mutex` of the lines. -/
inductive Mutex where
  | gs
  | line (line : Nat)
deriving DecidableEq, Repr

/-- `gs_cond` and the `m_condition` of the lines. -/
inductive Condition where
  | gs
  | line (line : Nat)
deriving DecidableEq, Repr

/-- What a thread does next in `createClient`. -/
inductive ClientStage where
  | enter
  | create
  | notify (line : Nat)
  | unlock (line : Nat)
  | waitForConnection (line : Nat)
  | test (line : Nat)
  | predicate (line : Nat)
  | wait (line : Nat)
  | relock (line : Nat)
  | leave (line : Nat)
deriving DecidableEq, Repr

/-- What a thread does next in `waitConnection`, and in the constructor of the line `server` for the client's line. -/
inductive ServerStage where
  | enter
  | scan
  | construct (line : Nat)
  | lockOther (line server : Nat)
  | setOut (line server : Nat)
  | setIn (line server : Nat)
  | connectOut (line server : Nat)
  | connectIn (line server : Nat)
  | notifyOther (line server : Nat)
  | unlockOther (line server : Nat)
  | deadline
  | wait
  | relock
  | leave (result : Option Nat)
deriving DecidableEq, Repr

inductive Point where
  | idle
  | createClient (address : String) (st : ClientStage)
  | waitConnection (address : String) (timeoutInMs : Int) (st : ServerStage)
deriving DecidableEq, Repr

/-- A line is queued, taken by an acceptor with an address, adopted by a server's line; the calls return. -/
inductive Event where
  | queued (line : Handle)
  | taken (address : String) (line : Handle)
  | adopted (line server : Nat)
  | created (line : Handle)
  | accepted (address : String) (result : Option Nat)
deriving DecidableEq, Repr

abbrev Action := Monitor.Action Mutex Condition Point Inproc Event

def newQueue : DataQueue InprocLine.queueSize := .new _ (by decide)

def connectedQueue : DataQueue InprocLine.queueSize := .connectedNew _ (by decide)

/-- A queue of a line, if it has one. -/
def queueOf (w : Inproc) (direction : Direction) (line : Nat) : Option Nat :=
  w.lines[line]?.bind fun l => l.queue direction

/-- `m_in && m_out` -/
def joined (w : Inproc) (line : Nat) : Bool :=
  (w.queueOf .incoming line).isSome && (w.queueOf .outgoing line).isSome

/-- `new InprocLine(address)`, and the line is queued. -/
def addClient (w : Inproc) (line : Handle) : Inproc :=
  { w with registry := w.registry.queueClient line, lines := w.lines ++ [⟨none, none⟩] }

/-- The members of a new line of an acceptor: two new queues. -/
def addServer (w : Inproc) : Inproc :=
  { w with lines := w.lines ++ [⟨some w.queues.length, some (w.queues.length + 1)⟩]
           queues := w.queues ++ [newQueue, newQueue] }

def setQueue (w : Inproc) (direction : Direction) (line : Nat) (queue : Option Nat) : Inproc :=
  { w with lines := w.lines.modify line fun l => l.setQueue queue direction }

/-- `setConnectionFlag(true)` -/
def connect (w : Inproc) (queue : Option Nat) : Inproc :=
  match queue with
  | some q => { w with queues := w.queues.modify q fun queue => { queue with connected := true } }
  | none => w

/-- `createClient`. -/
def clientCode (address : String) (w : Inproc) : ClientStage → Action
  | .enter => .lock .gs (.createClient address .create)
  | .create =>
    let line := ⟨w.lines.length, address⟩
    .run (w.addClient line) [.queued line] (.createClient address (.notify line.id))
  | .notify line => .notifyAll .gs (.createClient address (.unlock line))
  | .unlock line => .unlock .gs [] (.createClient address (.waitForConnection line))
  | .waitForConnection line => .lock (.line line) (.createClient address (.test line))
  | .test line => .run w [] (.createClient address (if w.joined line then .leave line else .predicate line))
  | .predicate line => .run w [] (.createClient address (if w.joined line then .leave line else .wait line))
  | .wait line => .wait (.line line) (.line line) (.createClient address (.relock line))
  | .relock line => .lock (.line line) (.createClient address (.predicate line))
  | .leave line => .unlock (.line line) [.created ⟨line, address⟩] .idle

/-- `waitConnection`, with `InprocLine(InprocLine* other)` from `construct` to `unlockOther`. -/
def serverCode (address : String) (timeoutInMs : Int) (w : Inproc) : ServerStage → Action
  | .enter => .lock .gs (.waitConnection address timeoutInMs .scan)
  | .scan =>
    match w.registry.takeClient address with
    | some (line, registry) =>
      .run { w with registry := registry } [.taken address line]
        (.waitConnection address timeoutInMs (.construct line.id))
    | none => .run w [] (.waitConnection address timeoutInMs .deadline)
  | .construct line => .run w.addServer [] (.waitConnection address timeoutInMs (.lockOther line w.lines.length))
  | .lockOther line server => .lock (.line line) (.waitConnection address timeoutInMs (.setOut line server))
  | .setOut line server =>
    .run (w.setQueue .outgoing line (w.queueOf .incoming server)) []
      (.waitConnection address timeoutInMs (.setIn line server))
  | .setIn line server =>
    .run (w.setQueue .incoming line (w.queueOf .outgoing server)) []
      (.waitConnection address timeoutInMs (.connectOut line server))
  | .connectOut line server =>
    .run (w.connect (w.queueOf .outgoing server)) [] (.waitConnection address timeoutInMs (.connectIn line server))
  | .connectIn line server =>
    .run (w.connect (w.queueOf .incoming server)) [] (.waitConnection address timeoutInMs (.notifyOther line server))
  | .notifyOther line server =>
    .notifyOne (.line line) (.waitConnection address timeoutInMs (.unlockOther line server))
  | .unlockOther line server =>
    .unlock (.line line) [.adopted line server] (.waitConnection address timeoutInMs (.leave (some server)))
  | .deadline => .run w [] (.waitConnection address timeoutInMs (if timeoutInMs < 0 then .leave none else .wait))
  | .wait => .wait .gs .gs (.waitConnection address timeoutInMs .relock)
  | .relock => .lock .gs (.waitConnection address timeoutInMs .scan)
  | .leave result => .unlock .gs [.accepted address result] .idle

def code : Point → Inproc → Action
  | .idle, _ => .stop
  | .createClient address st, w => clientCode address w st
  | .waitConnection address timeoutInMs st, w => serverCode address timeoutInMs w st

def program : Monitor.Program Mutex Condition Point Inproc Event where
  isIdle p := p == .idle
  entry
    | .createClient _ .enter => true
    | .waitConnection _ _ .enter => true
    | _ => false
  code := code
  expire
    | .waitConnection address timeoutInMs .deadline => some (.waitConnection address timeoutInMs (.leave none))
    | _ => none

abbrev State (τ : Type) := Monitor.State τ Mutex Condition Point Inproc

abbrev Trace (τ : Type) := List (τ × Monitor.Obs Point Event)

/-- A process without lines. -/
def empty : Inproc := { registry := .empty, lines := [], queues := [] }

/-! ### The lock discipline -/

def ClientStage.holds : ClientStage → Mutex → Bool
  | .create, m | .notify _, m | .unlock _, m => m == .gs
  | .test line, m | .predicate line, m | .wait line, m | .leave line, m => m == .line line
  | .enter, _ | .waitForConnection _, _ | .relock _, _ => false

def ServerStage.holds : ServerStage → Mutex → Bool
  | .enter, _ | .relock, _ => false
  | .setOut line _, m | .setIn line _, m | .connectOut line _, m | .connectIn line _, m | .notifyOther line _, m
  | .unlockOther line _, m => m == .gs || m == .line line
  | _, m => m == .gs

/-- The mutexes a thread at a point holds. -/
def holds : Point → Mutex → Prop
  | .idle, _ => False
  | .createClient _ st, m => st.holds m = true
  | .waitConnection _ _ st, m => st.holds m = true

/-- The condition variable a thread may be asleep on. -/
def sleepsOn : Point → Option Condition
  | .createClient _ (.relock line) => some (.line line)
  | .waitConnection _ _ .relock => some .gs
  | _ => none

theorem disciplined : program.Disciplined holds sleepsOn where
  idle := by
    intro p hp
    cases p with
    | idle => exact ⟨fun _ h => h, rfl⟩
    | createClient _ _ | waitConnection _ _ _ => cases hp
  entry := by
    intro p hp m
    cases p with
    | idle => exact id
    | createClient _ st => cases st <;> first | exact Bool.false_ne_true | cases hp
    | waitConnection _ _ st => cases st <;> first | exact Bool.false_ne_true | cases hp
  code := by
    intro p w k w' es h
    cases p with
    | idle => cases h
    | createClient address st =>
      cases st <;> cases h <;>
        simp only [program, code, clientCode, Monitor.Action.Legal, Monitor.Action.held, holds] <;>
        refine ⟨by first | trivial | simp [ClientStage.holds], fun m => ?_⟩ <;> try split
      all_goals simp [ClientStage.holds]
    | waitConnection address timeoutInMs st =>
      cases st with
      | scan =>
        simp only [program, code, serverCode] at h ⊢
        cases htake : w.registry.takeClient address with
        | none =>
          rw [htake] at h
          cases h
          exact ⟨trivial, fun m => Iff.rfl⟩
        | some taken =>
          rw [htake] at h
          cases h
          exact ⟨trivial, fun m => Iff.rfl⟩
      | _ =>
        cases h
        simp only [program, code, serverCode, Monitor.Action.Legal, Monitor.Action.held, holds]
        refine ⟨by first | trivial | simp [ServerStage.holds], fun m => ?_⟩
        try split
        all_goals cases m <;> simp [ServerStage.holds]
  wait := by
    intro p w c m k h
    cases p with
    | idle => cases h
    | createClient _ st =>
      cases st <;> cases h
      rfl
    | waitConnection address _ st =>
      cases st with
      | scan =>
        simp only [program, code, serverCode] at h
        split at h
        · cases h
        · cases h
      | _ =>
        cases h
        try rfl
  expire := by
    intro p k h m
    cases p with
    | idle => cases h
    | createClient _ _ => cases h
    | waitConnection _ _ st =>
      cases st <;> cases h
      exact Iff.rfl

end Inproc

end Cppio
