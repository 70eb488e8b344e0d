import Cppio.MessageStream
import Cppio.ReadMessageProgress
import Cppio.SocketLines

/-!
# Messages over sockets

A thread that receives messages from any number of sockets, one call of `readMessage` after the other, and writes to
them and sets their options in between; other calls it makes, to whatever, may fail and leave their `errno`.

What arrives at a socket is received in order, and nothing of it is lost when the peer closes (`receives_of_run`).  At
the end of a stream `read` of both classes looks at `errno`, which no call has set there: what it finds is left over
from the last call of the thread that failed, be it at another socket.
-/

namespace Cppio

open MessageProtocol

/-- A thread and the system under it. -/
structure SocketThread where
  os : StreamSystem
  /-- The call of `readMessage` the thread is in. -/
  calling : Option (Socket × Reader (Int × Message))

namespace SocketThread

inductive Label where
  /-- Bytes of the peer arrive. -/
  | arrive (fd : Int) (bytes : List Byte)
  /-- The peer closes its end. -/
  | hangUp (fd : Int)
  /-- The thread calls `readMessage` with an empty message. -/
  | readMessage (line : Socket)
  /-- The system replies to the call in progress. -/
  | answer (reply : StreamReply)
  | write (line : Socket) (buffer : List Byte) (reply : StreamReply)
  | setOption (line : Socket) (option : LineOption) (msecs : Int) (reply : StreamReply)
  /-- Some other call fails. -/
  | fail (errno : Int)

inductive Event where
  | arrived (fd : Int) (bytes : List Byte)
  | replied (call : StreamCall) (reply : StreamReply)
  | set (fd : Int) (option : LineOption) (msecs rc : Int)
  | failed (errno : Int)
  /-- `readMessage` returns. -/
  | returned (fd : Int) (outcome : Int × Message)
deriving DecidableEq

abbrev Trace := List Event

/-- The thread with fresh sockets. -/
def start (errno : Int) : SocketThread := { os := .start errno, calling := none }

/-- The call of `readMessage` on the line goes on as `p`. -/
def goOn (os : StreamSystem) (line : Socket) : Reader (Int × Message) → SocketThread × Trace
  | .done outcome => (⟨os, none⟩, [.returned line.socket outcome])
  | .ask n k => (⟨os, some (line, .ask n k)⟩, [])

def replies (log : List (StreamCall × StreamReply)) : Trace := log.map fun x => .replied x.1 x.2

def next (t : SocketThread) : Label → Option (SocketThread × Trace)
  | .arrive fd bytes =>
    if t.os.closed fd then none
    else some ({ t with os := t.os.arrive fd bytes }, [.arrived fd bytes])
  | .hangUp fd => some ({ t with os := t.os.hangUp fd }, [])
  | .readMessage line =>
    match t.calling with
    | none => some ({ t with calling := some (line, MessageProtocol.readMessage .empty) }, [])
    | some _ => none
  | .answer reply =>
    match t.calling with
    | some (line, .ask n k) =>
      ((line.virtualRead n).play StreamSystem.respond t.os [reply]).map fun (result, os, log) =>
        let (t', es) := goOn os line (k result)
        (t', replies log ++ es)
    | _ => none
  | .write line buffer reply =>
    match t.calling with
    | none =>
      ((line.virtualWrite buffer).play StreamSystem.respond t.os [reply]).map fun (_, os, log) =>
        ({ t with os := os }, replies log)
    | some _ => none
  | .setOption line option msecs reply =>
    match t.calling with
    | none =>
      ((line.virtualSetOption option msecs).play StreamSystem.respond t.os [reply]).map fun (_, os, log) =>
        ({ t with os := os }, replies log ++ [.set line.socket option msecs reply.rc])
    | some _ => none
  | .fail errno =>
    match t.calling with
    | none => some ({ t with os := t.os.fail errno }, [.failed errno])
    | some _ => none

def machine : Machine SocketThread Label Event := ⟨next⟩

/-! ### What a trace shows of a socket -/

/-- The bytes that have arrived. -/
def arrived (fd : Int) (tr : Trace) : List Byte :=
  tr.flatMap fun e =>
    match e with
    | .arrived fd' bytes => if fd' = fd then bytes else []
    | _ => []

/-- The outcomes of the calls of `readMessage`. -/
def outcomes (fd : Int) (tr : Trace) : List (Int × Message) :=
  tr.filterMap fun e =>
    match e with
    | .returned fd' outcome => if fd' = fd then some outcome else none
    | _ => none

/-- The messages received before a call failed. -/
def received (fd : Int) (tr : Trace) : List Message :=
  ((outcomes fd tr).takeWhile fun outcome => outcome.1 = 1).map Prod.snd

/-- No call has failed. -/
def NoneFailed (fd : Int) (tr : Trace) : Prop := ∀ outcome ∈ outcomes fd tr, outcome.1 = 1

/-- The receive timeout in force, in milliseconds. -/
def receiveTimeout (fd : Int) (tr : Trace) : Int :=
  tr.foldl (fun msecs e =>
    match e with
    | .set fd' .receiveTimeout msecs' rc => if fd' = fd ∧ 0 ≤ rc then msecs' else msecs
    | _ => msecs) 0

/-- The `errno` of the last call of the thread that failed. -/
def lastErrno (errno : Int) (tr : Trace) : Int :=
  tr.foldl (fun errno e =>
    match e with
    | .replied _ reply => if reply.rc < 0 then reply.errno else errno
    | .failed errno' => errno'
    | _ => errno) errno

/-- `read` of the system has returned 0. -/
def AtEnd (fd : Int) (tr : Trace) : Prop := ∃ n reply, .replied (.read fd n) reply ∈ tr ∧ reply.rc = 0

/-- What the last reply to a call of `readMessage` makes it return. -/
structure Returns (errno fd : Int) (past : Trace) (reply : StreamReply) (result : Int) : Prop where
  message : 0 < reply.rc → result = 1
  failed : reply.rc < 0 → result = ErrorCode.eTimeout.code ∧ receiveTimeout fd past ≠ 0 ∨
    result = ErrorCode.eConnectionLost.code ∨ result = ErrorCode.eUnknown.code
  ended : reply.rc = 0 → result =
    if lastErrno errno past = Errno.etimedout then ErrorCode.eTimeout.code else ErrorCode.eConnectionLost.code
  complete : reply.rc = 0 → NoneFailed fd past → ∀ ms : List Message, (∀ m ∈ ms, m.Encodable) →
    (encodings ms <+: arrived fd past ↔ ms <+: received fd past)

/-- What may be seen of a socket next: behind its end nothing arrives and no message is received. -/
def Allowed (errno fd : Int) (past : Trace) : Event → Prop
  | .arrived fd' _ => fd' = fd → ¬ AtEnd fd past
  | .returned fd' outcome => fd' = fd → ∃ past' n reply, past = past' ++ [.replied (.read fd n) reply] ∧
      Returns errno fd past' reply outcome.1 ∧ (AtEnd fd past → outcome.1 ≠ 1)
  | .replied _ _ | .set _ _ _ _ | .failed _ => True

/-! ### What one step can do -/

/-- What `read` of both classes makes of a reply. -/
def readResult (reply : StreamReply) : ReadResult :=
  if reply.rc < 0 then
    if reply.errno = Errno.econnreset ∨ reply.errno = Errno.enotconn then .error .eConnectionLost
    else if reply.errno = Errno.eagain then .error .eTimeout
    else .error .eUnknown
  else if reply.rc = 0 then if reply.errno ≠ Errno.etimedout then .error .eConnectionLost else .error .eTimeout
  else .ok reply.bytes

theorem virtualRead_eq (line : Socket) (n : Nat) :
    line.virtualRead n = .call (.read line.socket n) fun reply => .done (readResult reply) := by
  have h : line.read n = .call (.read line.socket n) fun reply => .done (readResult reply) := by
    simp only [Socket.read, readResult]
    congr 1
    funext reply
    split_ifs <;> rfl
  rw [← h]
  unfold Socket.virtualRead
  split <;> rfl

theorem readResult_of_pos {reply : StreamReply} (h : 0 < reply.rc) : readResult reply = .ok reply.bytes := by
  rw [readResult, if_neg (by omega), if_neg (by omega)]

theorem readResult_of_zero {reply : StreamReply} (h : reply.rc = 0) : readResult reply =
    .error (if reply.errno = Errno.etimedout then .eTimeout else .eConnectionLost) := by
  rw [readResult, if_neg (by omega), if_pos h, ite_not]
  split <;> rfl

/-- A read that fails times out only with `EAGAIN`. -/
theorem readResult_of_neg {reply : StreamReply} (h : reply.rc < 0) : ∃ e, readResult reply = .error e ∧
    (e = .eTimeout ∧ reply.errno = Errno.eagain ∨ e = .eConnectionLost ∨ e = .eUnknown) := by
  rw [readResult, if_pos h]
  split_ifs with hlost hagain
  · exact ⟨_, rfl, .inr (.inl rfl)⟩
  · exact ⟨_, rfl, .inl ⟨rfl, hagain⟩⟩
  · exact ⟨_, rfl, .inr (.inr rfl)⟩

inductive Move (t : SocketThread) : SocketThread → Trace → Prop
  | arrive {fd bytes} : t.os.closed fd = false → Move t { t with os := t.os.arrive fd bytes } [.arrived fd bytes]
  | hangUp {fd} : Move t { t with os := t.os.hangUp fd } []
  | begin {line} : t.calling = none → Move t { t with calling := some (line, readMessage .empty) } []
  | answer {line n k reply os'} : t.calling = some (line, .ask n k) →
      t.os.respond (.read line.socket n) reply = some os' →
      Move t (goOn os' line (k (readResult reply))).1
        (.replied (.read line.socket n) reply :: (goOn os' line (k (readResult reply))).2)
  | write {fd buffer reply os'} : t.calling = none → t.os.respond (.write fd buffer) reply = some os' →
      Move t { t with os := os' } [.replied (.write fd buffer) reply]
  | setOption {fd option msecs reply os'} : t.calling = none →
      t.os.respond (.setsockopt fd option (msecs.tdiv 1000) ((msecs - msecs.tdiv 1000 * 1000) * 1000)) reply =
        some os' →
      Move t { t with os := os' } [.replied (.setsockopt fd option (msecs.tdiv 1000)
        ((msecs - msecs.tdiv 1000 * 1000) * 1000)) reply, .set fd option msecs reply.rc]
  | fail {errno} : t.calling = none → Move t { t with os := t.os.fail errno } [.failed errno]

variable {t t' : SocketThread} {tr es : Trace} {l : Label} {errno fd : Int}

private theorem play_call {α : Type} {os : StreamSystem} {c : StreamCall} {k : StreamReply → α} {reply : StreamReply}
    {r : α × StreamSystem × List (StreamCall × StreamReply)}
    (h : (Interaction.call c fun reply => .done (k reply)).play StreamSystem.respond os [reply] = some r) :
    ∃ os', os.respond c reply = some os' ∧ r = (k reply, os', [(c, reply)]) := by
  simp only [Interaction.play] at h
  split at h
  · rename_i os' hos
    cases h
    exact ⟨os', hos, rfl⟩
  · cases h

theorem virtualWrite_eq (line : Socket) (buffer : List Byte) : ∃ k : StreamReply → Int, line.virtualWrite buffer =
    .call (.write line.socket buffer) fun reply => .done (k reply) := by
  unfold Socket.virtualWrite
  split
  · refine ⟨fun reply => if reply.rc ≤ 0 then if reply.errno = Errno.econnreset ∨ reply.errno = Errno.enotconn then
      ErrorCode.eConnectionLost.code else ErrorCode.eUnknown.code else reply.rc, ?_⟩
    simp only [UnixSocket.write]
    congr 1
    funext reply
    split_ifs <;> rfl
  · refine ⟨fun reply => if reply.rc ≤ 0 then ErrorCode.eUnknown.code else reply.rc, ?_⟩
    simp only [TcpSocket.write]
    congr 1
    funext reply
    split_ifs <;> rfl

theorem virtualSetOption_eq (line : Socket) (option : LineOption) (msecs : Int) : line.virtualSetOption option msecs =
    .call (.setsockopt line.socket option (msecs.tdiv 1000) ((msecs - msecs.tdiv 1000 * 1000) * 1000)) fun _ =>
      .done () := by
  unfold Socket.virtualSetOption
  split <;> rfl

theorem move_of_next (h : next t l = some (t', es)) : Move t t' es := by
  cases l with
  | arrive fd bytes =>
    simp only [next] at h
    split at h <;> cases h
    exact .arrive (Bool.eq_false_iff.2 ‹_›)
  | hangUp fd =>
    cases h
    exact .hangUp
  | readMessage line =>
    simp only [next] at h
    split at h <;> cases h
    exact .begin ‹_›
  | answer reply =>
    simp only [next] at h
    split at h
    · rename_i line n k hcalling
      obtain ⟨r, hplay, heq⟩ := Option.map_eq_some_iff.1 h
      rw [virtualRead_eq] at hplay
      obtain ⟨os', hos, rfl⟩ := play_call hplay
      cases heq
      exact .answer hcalling hos
    · cases h
  | write line buffer reply =>
    simp only [next] at h
    split at h
    · obtain ⟨r, hplay, heq⟩ := Option.map_eq_some_iff.1 h
      obtain ⟨k, hk⟩ := virtualWrite_eq line buffer
      rw [hk] at hplay
      obtain ⟨os', hos, rfl⟩ := play_call hplay
      cases heq
      exact .write ‹_› hos
    · cases h
  | setOption line option msecs reply =>
    simp only [next] at h
    split at h
    · obtain ⟨r, hplay, heq⟩ := Option.map_eq_some_iff.1 h
      rw [virtualSetOption_eq] at hplay
      obtain ⟨os', hos, rfl⟩ := play_call hplay
      cases heq
      exact .setOption ‹_› hos
    · cases h
  | fail errno =>
    simp only [next] at h
    split at h <;> cases h
    exact .fail ‹_›

/-! ### What the system replies -/

theorem respond_read {os os' : StreamSystem} {n : Nat} {reply : StreamReply}
    (h : os.respond (.read fd n) reply = some os') :
    (reply.rc < 0 ∧ (reply.errno = Errno.eagain → os.timed fd) ∧ os' = { os with errno := reply.errno }) ∨
      (0 ≤ reply.rc ∧ reply.errno = os.errno ∧ os.MayRead reply fd n ∧ os' =
        { os with pending := Function.update os.pending fd ((os.pending fd).drop reply.bytes.length) }) := by
  simp only [StreamSystem.respond, StreamSystem.succeed] at h
  split at h
  · rename_i hneg
    split at h <;> cases h
    exact .inl ⟨hneg, ‹_›, rfl⟩
  · rename_i hge
    split at h
    · split at h <;> cases h
      exact .inr ⟨by omega, ‹_›, ‹_›, rfl⟩
    · cases h

/-- The calls that do not read leave the streams alone, and a timeout is set by `setsockopt` only. -/
theorem respond_other {os os' : StreamSystem} {call : StreamCall} {reply : StreamReply}
    (h : os.respond call reply = some os') (hcall : ∀ fd n, call ≠ .read fd n) :
    os'.pending = os.pending ∧ os'.closed = os.closed ∧
      os'.errno = (if reply.rc < 0 then reply.errno else os.errno) ∧ ∀ fd, os'.timed fd = true →
        (∃ sec usec, call = .setsockopt fd .receiveTimeout sec usec ∧ 0 ≤ reply.rc ∧ (sec ≠ 0 ∨ usec ≠ 0)) ∨
          os.timed fd = true ∧ (0 ≤ reply.rc → ∀ sec usec, call ≠ .setsockopt fd .receiveTimeout sec usec) := by
  simp only [StreamSystem.respond] at h
  split at h
  · rename_i hneg
    split at h <;> cases h
    exact ⟨rfl, rfl, (if_pos hneg).symm, fun fd ht => .inr ⟨ht, fun hge => by omega⟩⟩
  · rename_i hge
    split at h
    · cases call with
      | read fd n => exact absurd rfl (hcall fd n)
      | write fd buffer =>
        simp only [StreamSystem.succeed] at h
        split at h <;> cases h
        exact ⟨rfl, rfl, (if_neg hge).symm, fun fd ht => .inr ⟨ht, fun _ _ _ => StreamCall.noConfusion⟩⟩
      | setsockopt fd option sec usec =>
        cases option with
        | sendTimeout =>
          cases h
          exact ⟨rfl, rfl, (if_neg hge).symm, fun fd' ht => .inr ⟨ht, fun _ _ _ heq => by cases heq⟩⟩
        | receiveTimeout =>
          cases h
          refine ⟨rfl, rfl, (if_neg hge).symm, fun fd' ht => ?_⟩
          by_cases hfd : fd' = fd
          · subst hfd
            exact .inl ⟨sec, usec, rfl, by omega, by simpa using ht⟩
          · refine .inr ⟨(Function.update_of_ne hfd _ _).symm.trans ht, fun _ _ _ heq => ?_⟩
            cases heq
            exact hfd rfl
    · cases h

/-- `setOption` sets a timeout just when it is given one. -/
theorem timeval_ne_zero (msecs : Int) :
    (msecs.tdiv 1000 ≠ 0 ∨ (msecs - msecs.tdiv 1000 * 1000) * 1000 ≠ 0) ↔ msecs ≠ 0 := by
  constructor
  · rintro h rfl
    simp at h
  · intro h
    omega

/-! ### The trace, step by step -/

theorem arrived_append (fd : Int) (tr es : Trace) : arrived fd (tr ++ es) = arrived fd tr ++ arrived fd es :=
  List.flatMap_append

theorem outcomes_append (fd : Int) (tr es : Trace) : outcomes fd (tr ++ es) = outcomes fd tr ++ outcomes fd es :=
  List.filterMap_append

theorem received_of_outcomes_nil (h : outcomes fd es = []) : received fd (tr ++ es) = received fd tr := by
  rw [received, outcomes_append, h, List.append_nil, received]

theorem noneFailed_append : NoneFailed fd (tr ++ es) ↔ NoneFailed fd tr ∧ NoneFailed fd es := by
  simp only [NoneFailed, outcomes_append, List.mem_append, or_imp, forall_and]

/-- The outcome of one more call. -/
theorem received_return (tr : List Event) {outcome : Int × Message} (h : outcomes fd es = [outcome]) :
    received fd (tr ++ es) = received fd tr ∧ ¬ NoneFailed fd (tr ++ es) ∨
      NoneFailed fd tr ∧ outcome.1 = 1 ∧ received fd (tr ++ es) = received fd tr ++ [outcome.2] := by
  by_cases hnone : NoneFailed fd tr
  · have hall : (outcomes fd tr).takeWhile (fun outcome => outcome.1 = 1) = outcomes fd tr :=
      List.takeWhile_eq_self_iff.2 fun o ho => decide_eq_true (hnone o ho)
    by_cases hone : outcome.1 = 1
    · refine .inr ⟨hnone, hone, ?_⟩
      rw [received, received, outcomes_append, h, List.takeWhile_append, if_pos (by rw [hall]), hall,
        List.takeWhile_cons_of_pos (by simpa using hone), List.takeWhile_nil, List.map_append]
      rfl
    · refine .inl ⟨?_, fun hall' => hone (hall' outcome (by rw [outcomes_append, h]; simp))⟩
      rw [received, received, outcomes_append, h, List.takeWhile_append, if_pos (by rw [hall]), hall,
        List.takeWhile_cons_of_neg (by simpa using hone), List.append_nil]
  · refine .inl ⟨?_, fun hall => hnone (noneFailed_append.1 hall).1⟩
    rw [received, received, outcomes_append, List.takeWhile_append, if_neg]
    intro hlength
    have hall := List.takeWhile_prefix (l := outcomes fd tr) (fun outcome => decide (outcome.1 = 1))
    exact hnone fun o ho => by
      rw [← hall.eq_of_length hlength] at ho
      simpa using List.mem_takeWhile_imp ho

theorem atEnd_append : AtEnd fd (tr ++ es) ↔ AtEnd fd tr ∨ AtEnd fd es := by
  simp only [AtEnd, List.mem_append, or_and_right, exists_or]

theorem lastErrno_append (errno : Int) (tr es : Trace) :
    lastErrno errno (tr ++ es) = lastErrno (lastErrno errno tr) es :=
  List.foldl_append

/-! ### The invariant -/

/-- What holds of a thread and the socket `fd`. -/
structure Inv (errno fd : Int) (tr : Trace) (t : SocketThread) : Prop where
  errno_eq : t.os.errno = lastErrno errno tr
  timed : t.os.timed fd = true → receiveTimeout fd tr ≠ 0
  encodable : ∀ m ∈ received fd tr, m.Encodable
  isPrefix : encodings (received fd tr) <+: arrived fd tr
  calling : ∀ line p, t.calling = some (line, p) → ∃ bytes, Holding p bytes ∧ (line.socket = fd → NoneFailed fd tr →
    arrived fd tr = encodings (received fd tr) ++ bytes ++ t.os.pending fd)
  between : (∀ line p, t.calling = some (line, p) → line.socket ≠ fd) → NoneFailed fd tr →
    arrived fd tr = encodings (received fd tr) ++ t.os.pending fd
  ended : AtEnd fd tr → t.os.closed fd = true ∧ t.os.pending fd = []

theorem inv_start (errno fd : Int) : Inv errno fd [] (start errno) where
  errno_eq := rfl
  timed h := by cases h
  encodable m hm := absurd hm List.not_mem_nil
  isPrefix := List.nil_prefix
  calling line p h := by cases h
  between _ _ := rfl
  ended h := by
    obtain ⟨n, reply, hmem, -⟩ := h
    cases hmem

/-- A step that does nothing at this socket. -/
private theorem Inv.quiet (h : Inv errno fd tr t)
    (hcalling : ∀ line p, t'.calling = some (line, p) →
      t.calling = some (line, p) ∨ line.socket ≠ fd ∧ ∃ bytes, Holding p bytes)
    (hgoes : ∀ line p, t.calling = some (line, p) → line.socket = fd → t'.calling = some (line, p))
    (hpending : t'.os.pending fd = t.os.pending fd) (hclosed : t.os.closed fd = true → t'.os.closed fd = true)
    (harrived : arrived fd es = []) (houtcomes : outcomes fd es = []) (hend : ¬ AtEnd fd es)
    (herrno : t'.os.errno = SocketThread.lastErrno t.os.errno es)
    (htimed : t'.os.timed fd = true → receiveTimeout fd (tr ++ es) ≠ 0) : Inv errno fd (tr ++ es) t' := by
  have hreceived : received fd (tr ++ es) = received fd tr := received_of_outcomes_nil houtcomes
  have harrived' : arrived fd (tr ++ es) = arrived fd tr := by rw [arrived_append, harrived, List.append_nil]
  have hnone : NoneFailed fd (tr ++ es) → NoneFailed fd tr := fun hnone => (noneFailed_append.1 hnone).1
  refine ⟨?_, htimed, ?_, ?_, fun line p hp => ?_, fun hother hnone' => ?_, fun hend' => ?_⟩
  · rw [herrno, lastErrno_append, h.errno_eq]
  · rw [hreceived]
    exact h.encodable
  · rw [hreceived, harrived']
    exact h.isPrefix
  · rw [hreceived, harrived', hpending]
    rcases hcalling line p hp with hp | ⟨hne, bytes, hholding⟩
    · obtain ⟨bytes, hholding, hall⟩ := h.calling line p hp
      exact ⟨bytes, hholding, fun hfd hnone' => hall hfd (hnone hnone')⟩
    · exact ⟨bytes, hholding, fun hfd => absurd hfd hne⟩
  · rw [hreceived, harrived', hpending]
    refine h.between (fun line p hp hfd => ?_) (hnone hnone')
    exact hother line p (hgoes line p hp hfd) hfd
  · obtain ⟨hclosed', hempty⟩ := h.ended ((atEnd_append.1 hend').resolve_right hend)
    exact ⟨hclosed hclosed', by rw [hpending, hempty]⟩

/-- The call on this socket returns with an error, after a read that took nothing. -/
private theorem Inv.gaveUp (h : Inv errno fd tr t) {line : Socket} (hfd : line.socket = fd) {n : Nat}
    {reply : StreamReply} {os' : StreamSystem} {e : ErrorCode} {m : Message}
    (hpending : os'.pending fd = t.os.pending fd) (hclosed : os'.closed = t.os.closed)
    (hended : reply.rc = 0 → t.os.closed fd = true ∧ t.os.pending fd = [])
    (herrno : os'.errno = if reply.rc < 0 then reply.errno else t.os.errno)
    (htimed : os'.timed = t.os.timed) :
    Inv errno fd (tr ++ [.replied (.read line.socket n) reply, .returned line.socket (e.code, m)]) ⟨os', none⟩ := by
  have hneg := e.code_neg
  have houtcomes : outcomes fd [.replied (.read line.socket n) reply, .returned line.socket (e.code, m)] =
      [(e.code, m)] := by simp [outcomes, hfd]
  have hsame : received fd (tr ++ [.replied (.read line.socket n) reply, .returned line.socket (e.code, m)]) =
      received fd tr ∧ ¬ NoneFailed fd (tr ++ [.replied (.read line.socket n) reply,
        .returned line.socket (e.code, m)]) := by
    rcases received_return tr houtcomes with hsame | ⟨-, hone, -⟩
    · exact hsame
    · simp only at hone
      omega
  have harrived : arrived fd (tr ++ [.replied (.read line.socket n) reply, .returned line.socket (e.code, m)]) =
      arrived fd tr := by
    rw [arrived_append]
    exact List.append_nil _
  refine ⟨?_, fun ht => ?_, ?_, ?_, fun _ _ hp => ?_, fun _ hnone => absurd hnone hsame.2, fun hend => ?_⟩
  · rw [herrno, lastErrno_append, ← h.errno_eq]
    rfl
  · rw [htimed] at ht
    rw [receiveTimeout, List.foldl_append]
    exact h.timed ht
  · rw [hsame.1]
    exact h.encodable
  · rw [hsame.1, harrived]
    exact h.isPrefix
  · cases hp
  · simp only [hclosed, hpending]
    rcases atEnd_append.1 hend with hend | ⟨n', reply', hmem, hzero⟩
    · exact h.ended hend
    · simp only [List.mem_cons, Event.replied.injEq, reduceCtorEq, List.not_mem_nil, or_false] at hmem
      exact hended (hmem.2 ▸ hzero)

/-- The call on this socket is given bytes. -/
private theorem Inv.gotBytes (h : Inv errno fd tr t) {line : Socket} (hfd : line.socket = fd) {n : Nat}
    {k : ReadResult → Reader (Int × Message)} {reply : StreamReply} {rest : List Byte} {os' : StreamSystem}
    (hcalling : t.calling = some (line, .ask n k)) (hpos : 0 < reply.rc) (hne : reply.bytes ≠ [])
    (hle : reply.bytes.length ≤ n) (hlt : reply.bytes.length < 2 ^ 31)
    (hsplit : t.os.pending fd = reply.bytes ++ rest) (hpending : os'.pending fd = rest)
    (herrno : os'.errno = t.os.errno) (htimed : os'.timed = t.os.timed) :
    Inv errno fd (tr ++ .replied (.read line.socket n) reply :: (goOn os' line (k (.ok reply.bytes))).2)
        (goOn os' line (k (.ok reply.bytes))).1 ∧
      ∀ outcome, k (.ok reply.bytes) = .done outcome → outcome.1 = 1 := by
  obtain ⟨bytes, hholding, hall⟩ := h.calling _ _ hcalling
  have hmore := hholding.more hne hle hlt
  have hnot : ¬ AtEnd fd tr := fun hend => by
    rw [(h.ended hend).2] at hsplit
    exact hne (List.append_eq_nil_iff.1 hsplit.symm).1
  have hreplied : ∀ es' : Trace, (∀ n' reply', .replied (.read fd n') reply' ∉ es') →
      ¬ AtEnd fd (tr ++ .replied (.read line.socket n) reply :: es') := by
    rintro es' hes' hend
    rcases atEnd_append.1 hend with hend | ⟨n', reply', hmem, hzero⟩
    · exact hnot hend
    · rcases List.mem_cons.1 hmem with heq | hmem
      · cases heq
        omega
      · exact hes' n' reply' hmem
  have hlast : ∀ es' : Trace, lastErrno t.os.errno es' = t.os.errno →
      os'.errno = lastErrno errno (tr ++ .replied (.read line.socket n) reply :: es') := by
    intro es' hes'
    have hge : ¬ reply.rc < 0 := by omega
    rw [herrno, lastErrno_append, ← h.errno_eq]
    simp only [lastErrno, List.foldl_cons, if_neg hge] at hes' ⊢
    exact hes'.symm
  cases hk : k (.ok reply.bytes) with
  | ask n' k' =>
    rw [hk] at hmore
    refine ⟨⟨hlast [] rfl, fun ht => ?_, ?_, ?_, fun line' p hp => ?_, fun hother => ?_, fun hend => ?_⟩,
      fun _ hdone => by cases hdone⟩
    · simp only [goOn, htimed] at ht
      rw [receiveTimeout, List.foldl_append]
      exact h.timed ht
    · rw [received_of_outcomes_nil (by rfl)]
      exact h.encodable
    · rw [received_of_outcomes_nil (by rfl), arrived_append]
      exact h.isPrefix.trans (List.prefix_append _ _)
    · cases hp
      refine ⟨_, hmore, fun hfd' hnone => ?_⟩
      have hall := hall hfd' (noneFailed_append.1 hnone).1
      rw [hsplit] at hall
      rw [received_of_outcomes_nil (by rfl), arrived_append, hall]
      simp [goOn, arrived, hpending]
    · exact absurd hfd (hother _ _ rfl)
    · exact absurd hend (hreplied [] (by simp))
  | done outcome =>
    rw [hk] at hmore
    obtain ⟨m, hm, rfl, hbytes⟩ := hmore.received
    have houtcomes : outcomes fd [.replied (.read line.socket n) reply, .returned line.socket (1, m)] = [(1, m)] := by
      simp [outcomes, hfd]
    have harrived : arrived fd (tr ++ [.replied (.read line.socket n) reply, .returned line.socket (1, m)]) =
        arrived fd tr := by
      rw [arrived_append]
      exact List.append_nil _
    -- what has arrived, when this message is counted
    have hcounted : NoneFailed fd tr → arrived fd tr = encodings (received fd tr ++ [m]) ++ rest := by
      intro hnone
      rw [hall hfd hnone, hsplit, encodings, encodings, List.flatMap_append]
      simp [← hbytes]
    refine ⟨⟨hlast _ rfl, fun ht => ?_, ?_, ?_, fun _ _ hp => ?_, fun _ hnone => ?_, fun hend => ?_⟩,
      fun _ hdone => ?_⟩
    · simp only [goOn, htimed] at ht
      rw [receiveTimeout, List.foldl_append]
      exact h.timed ht
    · rcases received_return tr houtcomes with ⟨hsame, -⟩ | ⟨-, -, hmore⟩
      · rw [goOn, hsame]
        exact h.encodable
      · rw [goOn, hmore]
        intro m' hm'
        rcases List.mem_append.1 hm' with hm' | hm'
        · exact h.encodable m' hm'
        · rw [List.mem_singleton.1 hm']
          exact hm
    · rcases received_return tr houtcomes with ⟨hsame, -⟩ | ⟨hnone, -, hmore⟩
      · rw [goOn, hsame, harrived]
        exact h.isPrefix
      · rw [goOn, hmore, harrived, hcounted hnone]
        exact List.prefix_append _ _
    · cases hp
    · rcases received_return tr houtcomes with ⟨-, hfailed⟩ | ⟨hnone', -, hmore⟩
      · exact absurd hnone hfailed
      · rw [goOn, hmore, harrived, hcounted hnone', hpending]
    · exact absurd hend (hreplied _ (by simp [goOn]))
    · cases hdone
      rfl

private theorem append_pair (tr : Trace) (x y : Event) : tr ++ [x, y] = tr ++ [x] ++ [y] :=
  (List.append_assoc tr [x] [y]).symm

/-- A reply to the call of `readMessage` on this socket. -/
private theorem Inv.answer (h : Inv errno fd tr t) (hallowed : Throughout (Allowed errno fd) tr) {line : Socket}
    (hfd : line.socket = fd) {n : Nat} {k : ReadResult → Reader (Int × Message)} {reply : StreamReply}
    {os' : StreamSystem} (hcalling : t.calling = some (line, .ask n k))
    (hos : t.os.respond (.read line.socket n) reply = some os') :
    Inv errno fd (tr ++ .replied (.read line.socket n) reply :: (goOn os' line (k (readResult reply))).2)
        (goOn os' line (k (readResult reply))).1 ∧
      Throughout (Allowed errno fd)
        (tr ++ .replied (.read line.socket n) reply :: (goOn os' line (k (readResult reply))).2) := by
  obtain ⟨bytes, hholding, hall⟩ := h.calling _ _ hcalling
  have hreplied : Throughout (Allowed errno fd) (tr ++ [.replied (.read line.socket n) reply]) :=
    hallowed.snoc trivial
  -- a call that is given up
  have hfailed : ∀ e : ErrorCode, readResult reply = .error e → reply.rc ≤ 0 → os'.pending fd = t.os.pending fd →
      os'.closed = t.os.closed → (reply.rc = 0 → t.os.closed fd = true ∧ t.os.pending fd = []) →
      (os'.errno = if reply.rc < 0 then reply.errno else t.os.errno) → os'.timed = t.os.timed →
      Returns errno fd tr reply e.code →
      Inv errno fd (tr ++ .replied (.read line.socket n) reply :: (goOn os' line (k (readResult reply))).2)
          (goOn os' line (k (readResult reply))).1 ∧
        Throughout (Allowed errno fd)
          (tr ++ .replied (.read line.socket n) reply :: (goOn os' line (k (readResult reply))).2) := by
    intro e hresult hrc hpending hclosed hended herrno htimed hreturns
    obtain ⟨m, hm⟩ := hholding.fails e
    have hneg := e.code_neg
    rw [hresult, hm]
    refine ⟨h.gaveUp hfd hpending hclosed hended herrno htimed, ?_⟩
    rw [goOn, append_pair]
    refine hreplied.snoc fun _ => ⟨tr, n, reply, by rw [hfd], hreturns, fun _ => ?_⟩
    simp only
    omega
  rcases respond_read hos with ⟨hneg, hagain, rfl⟩ | ⟨hge, herrno, ⟨hrc, hle, hprefix, hend⟩, hos'⟩
  · obtain ⟨e, hresult, he⟩ := readResult_of_neg hneg
    refine hfailed e hresult (by omega) rfl rfl (fun hzero => by omega) (if_pos hneg).symm rfl
      ⟨fun hpos => by omega, fun _ => ?_, fun hzero => by omega, fun hzero => by omega⟩
    rcases he with ⟨rfl, heagain⟩ | rfl | rfl
    · exact .inl ⟨rfl, h.timed (hfd ▸ hagain heagain)⟩
    · exact .inr (.inl rfl)
    · exact .inr (.inr rfl)
  · by_cases hne : reply.bytes = []
    · -- the end of the stream
      have hzero : reply.rc = 0 := by rw [hrc, hne]; rfl
      have hpos := hholding.ask_pos
      obtain ⟨hempty, hclosed⟩ := (hend hne).resolve_left (by omega)
      rw [hfd] at hempty hclosed
      subst hos'
      refine hfailed _ (readResult_of_zero hzero) (by omega) ?_ rfl (fun _ => ⟨hclosed, hempty⟩)
        (if_neg (by omega)).symm rfl
        ⟨fun hpos => by omega, fun hneg => by omega, fun _ => ?_, fun _ hnone ms hms => ?_⟩
      · simp [hfd, hne, hempty]
      · rw [← h.errno_eq, ← herrno]
        split <;> rfl
      · rw [hall hfd hnone, hempty, List.append_nil]
        refine ⟨Message.prefixFree.isPrefix_of_append h.encodable hms hholding.not_holdsMessage, fun hpre => ?_⟩
        exact (PrefixFree.flatMap_isPrefix hpre _).trans (List.prefix_append _ _)
    · have hpos : 0 < reply.rc := by
        have := List.length_pos_iff.2 hne
        omega
      obtain ⟨rest, hrest⟩ := hprefix
      rw [hfd] at hrest
      have hmax : min n StreamSystem.maxTransfer < 2 ^ 31 := by
        unfold StreamSystem.maxTransfer
        omega
      have hpending : os'.pending fd = rest := by
        rw [hos']
        simp [hfd, ← hrest]
      obtain ⟨hinv, hone⟩ := h.gotBytes hfd hcalling hpos hne (by omega) (by omega) hrest.symm hpending (by rw [hos'])
        (by rw [hos'])
      rw [readResult_of_pos hpos]
      refine ⟨hinv, ?_⟩
      cases hk : k (.ok reply.bytes) with
      | ask n' k' => exact hreplied
      | done outcome =>
        have hout := hone outcome hk
        have hreturns : Returns errno fd tr reply outcome.1 :=
          ⟨fun _ => hout, fun hneg => by omega, fun hzero => by omega, fun hzero => by omega⟩
        rw [goOn, append_pair]
        refine hreplied.snoc fun _ => ⟨tr, n, reply, by rw [hfd], hreturns, fun hend' => ?_⟩
        -- behind the end there are no bytes
        rcases atEnd_append.1 hend' with hend' | ⟨n', reply', hmem, hzero⟩
        · rw [(h.ended hend').2] at hrest
          exact absurd (List.append_eq_nil_iff.1 hrest).1 hne
        · cases List.mem_singleton.1 hmem
          omega

private theorem not_atEnd {e : Event} (he : ∀ n reply, e ≠ .replied (.read fd n) reply) : ¬ AtEnd fd [e] := by
  rintro ⟨n, reply, hmem, -⟩
  exact he n reply (List.mem_singleton.1 hmem).symm

/-- Bytes arrive at this socket. -/
private theorem Inv.arrive (h : Inv errno fd tr t) (hclosed : t.os.closed fd = false) (bytes : List Byte) :
    Inv errno fd (tr ++ [.arrived fd bytes]) { t with os := t.os.arrive fd bytes } := by
  have hreceived : received fd (tr ++ [.arrived fd bytes]) = received fd tr := received_of_outcomes_nil rfl
  have harrived : arrived fd (tr ++ [.arrived fd bytes]) = arrived fd tr ++ bytes := by
    rw [arrived_append]
    simp [arrived]
  have hpending : (t.os.arrive fd bytes).pending fd = t.os.pending fd ++ bytes := Function.update_self ..
  refine ⟨?_, fun ht => ?_, ?_, ?_, fun line p hp => ?_, fun hother hnone => ?_, fun hend => ?_⟩
  · rw [lastErrno_append, ← h.errno_eq]
    rfl
  · rw [receiveTimeout, List.foldl_append]
    exact h.timed ht
  · rw [hreceived]
    exact h.encodable
  · rw [hreceived, harrived]
    exact h.isPrefix.trans (List.prefix_append _ _)
  · obtain ⟨got, hholding, hall⟩ := h.calling line p hp
    refine ⟨got, hholding, fun hfd hnone => ?_⟩
    rw [hreceived, harrived, hall hfd (noneFailed_append.1 hnone).1, hpending, List.append_assoc]
  · rw [hreceived, harrived, h.between hother (noneFailed_append.1 hnone).1, hpending, List.append_assoc]
  · rcases atEnd_append.1 hend with hend | hend
    · rw [(h.ended hend).1] at hclosed
      cases hclosed
    · exact absurd hend (not_atEnd fun _ _ => Event.noConfusion)

/-- A call that goes on after a read holds the bytes it was given. -/
private theorem holding_of_ask {n n' : Nat} {k k' : ReadResult → Reader (Int × Message)} {bytes : List Byte}
    (h : Holding (.ask n k) bytes) {os os' : StreamSystem} {reply : StreamReply}
    (hos : os.respond (.read fd n) reply = some os') (hk : k (readResult reply) = .ask n' k') :
    ∃ bytes', Holding (.ask n' k') bytes' := by
  have hgivesUp : ∀ e : ErrorCode, readResult reply ≠ .error e := by
    intro e he
    obtain ⟨m, hm⟩ := h.fails e
    rw [he, hm] at hk
    cases hk
  rcases respond_read hos with ⟨hneg, -⟩ | ⟨hge, -, ⟨hrc, hle, -⟩, -⟩
  · obtain ⟨e, he, -⟩ := readResult_of_neg hneg
    exact absurd he (hgivesUp e)
  · by_cases hzero : reply.rc = 0
    · exact absurd (readResult_of_zero hzero) (hgivesUp _)
    · have hmax : min n StreamSystem.maxTransfer < 2 ^ 31 := by
        unfold StreamSystem.maxTransfer
        omega
      rw [readResult_of_pos (by omega)] at hk
      rw [← hk]
      exact ⟨_, h.more (List.length_pos_iff.1 (by omega)) (by omega) (by omega)⟩

/-- A reply to the call of `readMessage` on another socket. -/
private theorem Inv.answerOther (h : Inv errno fd tr t) (hallowed : Throughout (Allowed errno fd) tr) {line : Socket}
    (hfd : line.socket ≠ fd) {n : Nat} {k : ReadResult → Reader (Int × Message)} {reply : StreamReply}
    {os' : StreamSystem} (hcalling : t.calling = some (line, .ask n k))
    (hos : t.os.respond (.read line.socket n) reply = some os') :
    Inv errno fd (tr ++ .replied (.read line.socket n) reply :: (goOn os' line (k (readResult reply))).2)
        (goOn os' line (k (readResult reply))).1 ∧
      Throughout (Allowed errno fd)
        (tr ++ .replied (.read line.socket n) reply :: (goOn os' line (k (readResult reply))).2) := by
  obtain ⟨bytes, hholding, -⟩ := h.calling _ _ hcalling
  have hreplied : Throughout (Allowed errno fd) (tr ++ [.replied (.read line.socket n) reply]) :=
    hallowed.snoc trivial
  obtain ⟨hpending, hclosed, herrno, htimed⟩ : os'.pending fd = t.os.pending fd ∧ os'.closed = t.os.closed ∧
      os'.errno = (if reply.rc < 0 then reply.errno else t.os.errno) ∧ os'.timed = t.os.timed := by
    rcases respond_read hos with ⟨hneg, -, rfl⟩ | ⟨hge, -, -, rfl⟩
    · exact ⟨rfl, rfl, (if_pos hneg).symm, rfl⟩
    · exact ⟨Function.update_of_ne (Ne.symm hfd) _ _, rfl, (if_neg (by omega)).symm, rfl⟩
  have hclosed' : t.os.closed fd = true → os'.closed fd = true := fun hc => by rw [hclosed]; exact hc
  have hgoes : ∀ (p' : Option (Socket × Reader (Int × Message))) line' p, t.calling = some (line', p) →
      line'.socket = fd → p' = some (line', p) := by
    intro p' line' p hp hfd'
    rw [hcalling] at hp
    cases hp
    exact absurd hfd' hfd
  cases hk : k (readResult reply) with
  | ask n' k' =>
    refine ⟨h.quiet (fun line' p hp => ?_) (hgoes _) hpending hclosed' rfl rfl (not_atEnd fun _ _ heq => ?_) herrno
      fun ht => ?_, hreplied⟩
    · cases hp
      exact .inr ⟨hfd, holding_of_ask hholding hos hk⟩
    · cases heq
      exact hfd rfl
    · rw [receiveTimeout, List.foldl_append]
      exact h.timed (htimed ▸ ht)
  | done outcome =>
    refine ⟨h.quiet (fun _ _ hp => ?_) (hgoes _) hpending hclosed' rfl ?_ ?_ herrno fun ht => ?_, ?_⟩
    · cases hp
    · simp [outcomes, goOn, hfd]
    · rintro ⟨n', reply', hmem, -⟩
      simp only [goOn, List.mem_cons, Event.replied.injEq, StreamCall.read.injEq, reduceCtorEq, List.not_mem_nil,
        or_false] at hmem
      exact hfd hmem.1.1.symm
    · rw [receiveTimeout, List.foldl_append]
      exact h.timed (htimed ▸ ht)
    · rw [goOn, append_pair]
      exact hreplied.snoc fun heq => absurd heq hfd

private theorem allowed_replied (call : StreamCall) (reply : StreamReply) :
    Allowed errno fd tr (.replied call reply) := trivial

private theorem allowed_set (fd' : Int) (option : LineOption) (msecs rc : Int) :
    Allowed errno fd tr (.set fd' option msecs rc) := trivial

private theorem allowed_failed (errno' : Int) : Allowed errno fd tr (.failed errno') := trivial

/-- A step keeps the invariant, and shows nothing that is not allowed. -/
theorem inv_move (h : Inv errno fd tr t) (hallowed : Throughout (Allowed errno fd) tr) (hmove : Move t t' es) :
    Inv errno fd (tr ++ es) t' ∧ Throughout (Allowed errno fd) (tr ++ es) := by
  cases hmove with
  | @arrive fd' bytes hclosed =>
    by_cases hfd : fd' = fd
    · subst hfd
      refine ⟨h.arrive hclosed bytes, hallowed.snoc fun _ hend => ?_⟩
      rw [(h.ended hend).1] at hclosed
      cases hclosed
    · refine ⟨h.quiet (fun _ _ => .inl) (fun _ _ hp _ => hp) (Function.update_of_ne (Ne.symm hfd) _ _) id ?_ rfl
        (not_atEnd fun _ _ => Event.noConfusion) rfl fun ht => ?_, hallowed.snoc fun heq => absurd heq hfd⟩
      · simp [arrived, hfd]
      · rw [receiveTimeout, List.foldl_append]
        exact h.timed ht
  | @hangUp fd' =>
    rw [List.append_nil]
    refine ⟨⟨h.errno_eq, h.timed, h.encodable, h.isPrefix, h.calling, h.between, fun hend => ?_⟩, hallowed⟩
    obtain ⟨hclosed, hempty⟩ := h.ended hend
    refine ⟨?_, hempty⟩
    by_cases hfd : fd = fd'
    · subst hfd
      exact Function.update_self ..
    · exact (Function.update_of_ne hfd _ _).trans hclosed
  | @begin line hidle =>
    rw [List.append_nil]
    have hbetween := h.between (fun line' p hp => by rw [hidle] at hp; cases hp)
    refine ⟨⟨h.errno_eq, h.timed, h.encodable, h.isPrefix, fun line' p hp => ?_, fun _ => hbetween, h.ended⟩,
      hallowed⟩
    cases hp
    exact ⟨[], .start, fun _ hnone => by rw [List.append_nil]; exact hbetween hnone⟩
  | @answer line n k reply os' hcalling hos =>
    by_cases hfd : line.socket = fd
    · exact h.answer hallowed hfd hcalling hos
    · exact h.answerOther hallowed hfd hcalling hos
  | @write fd' buffer reply os' hidle hos =>
    obtain ⟨hpending, hclosed, herrno, htimed⟩ := respond_other hos fun _ _ => StreamCall.noConfusion
    refine ⟨h.quiet (fun _ _ => .inl) (fun _ _ hp _ => hp) (congrFun hpending _) (fun hc => by rw [hclosed]; exact hc)
      rfl rfl (not_atEnd fun _ _ heq => by cases heq) herrno fun ht => ?_, hallowed.snoc (allowed_replied _ _)⟩
    rw [receiveTimeout, List.foldl_append]
    rcases htimed fd ht with ⟨_, _, heq, -⟩ | ⟨ht, -⟩
    · cases heq
    · exact h.timed ht
  | @setOption fd' option msecs reply os' hidle hos =>
    obtain ⟨hpending, hclosed, herrno, htimed⟩ := respond_other hos fun _ _ => StreamCall.noConfusion
    refine ⟨h.quiet (fun _ _ => .inl) (fun _ _ hp _ => hp) (congrFun hpending _) (fun hc => by rw [hclosed]; exact hc)
      rfl rfl ?_ herrno fun ht => ?_, ?_⟩
    · rintro ⟨n, reply, hmem, -⟩
      simp at hmem
    · rw [receiveTimeout, List.foldl_append]
      rcases htimed fd ht with ⟨_, _, heq, hge, hne⟩ | ⟨ht, hnot⟩
      · cases heq
        simp only [List.foldl_cons, List.foldl_nil, true_and, if_pos hge]
        exact (timeval_ne_zero msecs).1 hne
      · cases option with
        | sendTimeout => exact h.timed ht
        | receiveTimeout =>
          have hother : ¬ (fd' = fd ∧ 0 ≤ reply.rc) := by
            rintro ⟨rfl, hge⟩
            exact hnot hge _ _ rfl
          simp only [List.foldl_cons, List.foldl_nil, if_neg hother]
          exact h.timed ht
    · rw [append_pair]
      exact (hallowed.snoc (allowed_replied _ _)).snoc (allowed_set _ _ _ _)
  | @fail errno' hidle =>
    refine ⟨h.quiet (fun _ _ => .inl) (fun _ _ hp _ => hp) rfl id rfl rfl (not_atEnd fun _ _ => Event.noConfusion) rfl
      fun ht => ?_, hallowed.snoc (allowed_failed _)⟩
    rw [receiveTimeout, List.foldl_append]
    exact h.timed ht

/-- In every run of a thread with fresh sockets, whatever the system replies: the messages received at a socket before
a call fails are, in order, those at the beginning of what has arrived there.  Every call of `readMessage` returns
with the read before it.  It returns 1 when that read gave bytes; when the read failed, it returns `eConnectionLost`,
`eUnknown`, or, if a receive timeout is in force, `eTimeout`.  When the read was at the end, it returns `eTimeout` or
`eConnectionLost`, according to the last call of the thread that failed; if no call has failed at this socket before,
the messages received are all that have arrived in full; and from then on nothing arrives there and no message is
received. -/
theorem receives_of_run (errno : Int) (tr : Trace) (t : SocketThread) (hrun : machine.Run (start errno) tr t)
    (fd : Int) : encodings (received fd tr) <+: arrived fd tr ∧ Throughout (Allowed errno fd) tr := by
  have h : Inv errno fd tr t ∧ Throughout (Allowed errno fd) tr := by
    induction hrun with
    | start => exact ⟨inv_start errno fd, .nil⟩
    | step _ _ hnext ih => exact inv_move ih.1 ih.2 (move_of_next hnext)
  exact ⟨h.1.isPrefix, h.2⟩

/-- A `connect` of the thread has timed out; later a peer sends a message and closes, and the loss of this connection
is taken for a timeout. -/
theorem receives_of_run_stale : ∃ tr t, machine.Run (start 0) tr t ∧
    outcomes 3 tr = [(1, ⟨[⟨[7]⟩]⟩), (ErrorCode.eTimeout.code, ⟨[]⟩)] ∧
    encodings (received 3 tr) <+: arrived 3 tr ∧ Throughout (Allowed 0 3) tr := by
  have h : (machine.exec (start 0) [.fail 110, .arrive 3 (Message.writeMessage ⟨[⟨[7]⟩]⟩), .hangUp 3,
      .readMessage ⟨.inet, [], 3⟩, .answer ⟨4, 110, [1, 0, 0, 0]⟩, .answer ⟨3, 110, [1, 0, 0]⟩, .answer ⟨1, 110, [0]⟩,
      .answer ⟨1, 110, [7]⟩, .readMessage ⟨.inet, [], 3⟩, .answer ⟨0, 110, []⟩]).any (fun r =>
        decide (outcomes 3 r.2 = [(1, ⟨[⟨[7]⟩]⟩), (ErrorCode.eTimeout.code, ⟨[]⟩)])) = true := by decide +kernel
  obtain ⟨⟨t, tr⟩, hexec, hs⟩ := (Option.any_eq_true _ _).1 h
  have hrun := Machine.RunWhere.of_exec hexec
  exact ⟨tr, t, hrun, of_decide_eq_true hs, receives_of_run 0 tr t hrun 3⟩

end SocketThread

end Cppio
