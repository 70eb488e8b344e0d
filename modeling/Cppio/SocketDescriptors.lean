import Cppio.IoLineManager
import Cppio.Sockets
import Cppio.Lib.Transition

/-!
# Descriptors of sockets

A process creates and destroys lines and acceptors through an `IoLineManager` with the factories for Unix and TCP
sockets.  An object that is returned holds one descriptor, which its destructor closes.  A call that fails should
leave no descriptor open, but it does where `connect`, `bind` or `setsockopt` fails, and where `accept` returns the
descriptor 0: then no object holds it, and it stays open for good (`balanced_of_run`).
-/

namespace Cppio

/-- The object that is returned. -/
def Result.object : Result Socket → Option Socket
  | .ok object => object
  | .error _ => none

/-- What a factory returns or throws. -/
def ofFactory : Except IoException Socket → Result Socket
  | .ok object => .ok (some object)
  | .error e => .error (.io e)

/-- `UnixSocketFactory` and `TcpSocketFactory`. -/
def factoryOf : Family → Factory
  | .unix => ⟨UnixSocketFactory.supportsScheme⟩
  | .inet => ⟨TcpSocketFactory.supportsScheme⟩

/-- A method of a factory, with what can be read behind its `serverName`. -/
def Family.method (behind address : List Byte) : Family → Method → Sys (Except IoException Socket)
  | .unix, .createClient => UnixSocketFactory.createClient behind address
  | .unix, .createServer => UnixSocketFactory.createServer behind address
  | .inet, .createClient => TcpSocketFactory.createClient address
  | .inet, .createServer => TcpSocketFactory.createServer address

/-- Call a method of a registered factory. -/
def callFactory (registered : List Family) (behind : List Byte) (call : FactoryCall) : Sys (Result Socket) :=
  match registered[call.factory]? with
  | some family => (family.method behind call.baseAddress call.method).map ofFactory
  | none => .crash

/-- The destructor of a line. -/
def destroyLine (line : Socket) : Sys Unit :=
  match line.family with
  | .unix => UnixSocket.destroy line
  | .inet => TcpSocket.destroy line

/-- The destructor of an acceptor. -/
def destroyAcceptor (acceptor : Socket) : Sys Unit :=
  match acceptor.family with
  | .unix => UnixSocketAcceptor.destroy acceptor
  | .inet => TcpSocketAcceptor.destroy acceptor

/-- A call that makes a descriptor fails, or replies with one that is not open. -/
def respondCreate (descriptors : List Int) (reply : Reply) : Option (List Int) :=
  if reply.rc < 0 then some descriptors
  else if reply.rc ∈ descriptors then none
  else some (reply.rc :: descriptors)

/-- The open descriptors after a call; a call that makes no descriptor may reply anything. -/
def respondDescriptors (descriptors : List Int) : Syscall → Reply → Option (List Int)
  | .socket _, reply | .accept _, reply => respondCreate descriptors reply
  | .close fd, _ => some (descriptors.filter (· ≠ fd))
  | _, _ => some descriptors

/-- The open descriptors, and the lines and acceptors that were returned and not destroyed. -/
structure ManagedProcess where
  descriptors : List Int
  lines : List Socket
  acceptors : List Socket
deriving DecidableEq, Repr

namespace ManagedProcess

abbrev Trace := List (Syscall × Reply)

/-- A method of the manager, with the calls of the factories carried out. -/
def manage (registered : List Family) (behind : List Byte)
    (p : Interaction FactoryCall (Result Socket) (Result Socket)) : Sys (Result Socket) :=
  p.interpret (callFactory registered behind)

def next (registered : List Family) (s : ManagedProcess) : SocketStep → Option (ManagedProcess × Trace)
  | .createServer behind address replies =>
    ((manage registered behind (IoLineManager.createServer (registered.map factoryOf) address)).play
      respondDescriptors s.descriptors replies).map
        fun (result, descriptors, log) =>
          ({ s with descriptors := descriptors, acceptors := result.object.toList ++ s.acceptors }, log)
  | .createClient behind address replies =>
    ((manage registered behind (IoLineManager.createClient (registered.map factoryOf) address)).play
      respondDescriptors s.descriptors replies).map
        fun (result, descriptors, log) =>
          ({ s with descriptors := descriptors, lines := result.object.toList ++ s.lines }, log)
  | .waitConnection acceptor replies =>
    if acceptor ∈ s.acceptors then
      (acceptor.waitConnection.play respondDescriptors s.descriptors replies).map
        fun (result, descriptors, log) =>
          ({ s with descriptors := descriptors, lines := result.toList ++ s.lines }, log)
    else none
  | .destroyLine line replies =>
    if line ∈ s.lines then
      ((Cppio.destroyLine line).play respondDescriptors s.descriptors replies).map
        fun (_, descriptors, log) => ({ s with descriptors := descriptors, lines := s.lines.erase line }, log)
    else none
  | .destroyAcceptor acceptor replies =>
    if acceptor ∈ s.acceptors then
      ((Cppio.destroyAcceptor acceptor).play respondDescriptors s.descriptors replies).map
        fun (_, descriptors, log) =>
          ({ s with descriptors := descriptors, acceptors := s.acceptors.erase acceptor }, log)
    else none

def machine (registered : List Family) : Machine ManagedProcess SocketStep (Syscall × Reply) := ⟨next registered⟩

/-- The descriptors `others` of the process are open from the start. -/
def start (others : List Int) : ManagedProcess := { descriptors := others, lines := [], acceptors := [] }

/-- The descriptors of the objects that are alive. -/
def held (s : ManagedProcess) : List Int := (s.acceptors ++ s.lines).map Socket.socket

/-- Besides the others, the open descriptors are those that are held. -/
def Balanced (others : List Int) (s : ManagedProcess) : Prop :=
  ∀ fd, fd ∈ s.descriptors ↔ fd ∈ others ∨ fd ∈ s.held

/-- A call that fails where the code does not close the socket, or an accepted descriptor that it takes for a
failure. -/
def Leaks : Syscall × Reply → Prop
  | (.connect _ _, reply) | (.bind _ _, reply) | (.setsockopt _, reply) => reply.rc < 0
  | (.accept _, reply) => reply.rc = 0
  | _ => False

instance : DecidablePred Leaks
  | (.connect _ _, reply) | (.bind _ _, reply) | (.setsockopt _, reply) => inferInstanceAs (Decidable (reply.rc < 0))
  | (.accept _, reply) => inferInstanceAs (Decidable (reply.rc = 0))
  | (.socket _, _) | (.listen _ _, _) | (.close _, _) | (.unlink _, _) => isFalse id

/-! ### The methods -/

/-- What a method makes of the open descriptors: it opens none, or one that the object it returns holds, or one that
is left. -/
inductive Outcome (descriptors : List Int) : List Int → Option Socket → Trace → Prop
  | unchanged {log} : (∀ e ∈ log, ¬ Leaks e) → Outcome descriptors descriptors none log
  | held {log} {fd : Int} {socket : Socket} : fd ∉ descriptors → socket.socket = fd → (∀ e ∈ log, ¬ Leaks e) →
      Outcome descriptors (fd :: descriptors) (some socket) log
  | left {log} {fd : Int} : fd ∉ descriptors → (∃ e ∈ log, Leaks e) → Outcome descriptors (fd :: descriptors) none log

variable {descriptors descriptors' : List Int}

theorem respondCreate_cases {reply : Reply} (h : respondCreate descriptors reply = some descriptors') :
    (reply.rc < 0 ∧ descriptors' = descriptors) ∨
      (0 ≤ reply.rc ∧ reply.rc ∉ descriptors ∧ descriptors' = reply.rc :: descriptors) := by
  unfold respondCreate at h
  split at h
  · cases h
    exact Or.inl ⟨‹_›, rfl⟩
  · split at h
    · cases h
    · cases h
      exact Or.inr ⟨Int.not_lt.1 ‹_›, ‹_›, rfl⟩

/-- Closing the descriptor that was made last. -/
theorem filter_cons_self {fd : Int} (h : fd ∉ descriptors) : (fd :: descriptors).filter (· ≠ fd) = descriptors := by
  rw [List.filter_cons_of_neg (by simp), List.filter_eq_self]
  rintro fd' hmem
  exact decide_eq_true fun heq => h (heq ▸ hmem)

/-- A `connect` opens nothing, and throws just if its call leaks. -/
def Connected (descriptors : List Int) (result : Except IoException Unit) (descriptors' : List Int) (log : Trace) :
    Prop :=
  descriptors' = descriptors ∧
    ((∃ e, result = .error e) ∧ (∃ e ∈ log, Leaks e) ∨ result = .ok () ∧ ∀ e ∈ log, ¬ Leaks e)

/-- Both `connect` methods make one call and throw if it fails. -/
private theorem connected_call (fd : Int) (name : SocketName) (message : Reply → IoException)
    (descriptors : List Int) : Interaction.Ensures respondDescriptors (.call (.connect fd name) fun reply =>
      if reply.rc < 0 then .done (.error (message reply)) else .done (.ok ())) (Connected descriptors)
    descriptors := by
  simp only [Interaction.ensures_call, Interaction.ensures_ite, Interaction.ensures_done]
  rintro reply _ ⟨⟩
  refine ⟨fun hfails => ⟨rfl, Or.inl ⟨⟨_, rfl⟩, _, List.mem_singleton_self _, hfails⟩⟩, fun hfails => ⟨rfl, ?_⟩⟩
  exact Or.inr ⟨rfl, fun e he => by rwa [List.mem_singleton.1 he]⟩

theorem UnixSocket.connect_spec (behind : List Byte) (this : Socket) (descriptors : List Int) :
    (UnixSocket.connect behind this).Ensures respondDescriptors (Connected descriptors) descriptors := by
  unfold UnixSocket.connect
  split
  · trivial
  · exact connected_call _ _ _ _

theorem TcpSocket.connect_spec (this : Socket) (descriptors : List Int) :
    (TcpSocket.connect this).Ensures respondDescriptors (Connected descriptors) descriptors :=
  connected_call _ _ _ _

theorem createClient_spec (family : Family) {connect : Socket → Sys (Except IoException Unit)}
    (hconnect : ∀ this descriptors, (connect this).Ensures respondDescriptors (Connected descriptors) descriptors)
    (address : List Byte) (descriptors : List Int) :
    (Socket.createClient family connect address).Ensures respondDescriptors (fun result descriptors' log =>
      Outcome descriptors descriptors' (ofFactory result).object log) descriptors := by
  refine Interaction.Ensures.bind ?_
  simp only [Socket.new, Interaction.ensures_call, Interaction.ensures_ite, Interaction.ensures_done]
  intro created descriptors₁ h₁
  rcases respondCreate_cases h₁ with ⟨hneg, rfl⟩ | ⟨hpos, hfresh, rfl⟩
  · exact ⟨fun _ => .unchanged (by simp [Leaks]), fun hnot => absurd hneg hnot⟩
  · refine ⟨fun hneg => absurd hneg (Int.not_lt.2 hpos), fun _ => Interaction.Ensures.bind ?_⟩
    refine (hconnect _ _).mono fun connected descriptors₂ log h => ?_
    obtain ⟨rfl, ⟨⟨e, rfl⟩, e', he', hleaks⟩ | ⟨rfl, hnone⟩⟩ := h
    · exact .left hfresh ⟨e', by simp [he'], hleaks⟩
    · refine .held hfresh rfl fun e he => ?_
      rcases List.mem_cons.1 (by simpa using he) with rfl | he
      · exact id
      · exact hnone e he

theorem UnixSocketAcceptor.new_spec (behind address : List Byte) (descriptors : List Int) :
    (UnixSocketAcceptor.new behind address).Ensures respondDescriptors (fun result descriptors' log =>
      Outcome descriptors descriptors' (ofFactory result).object log) descriptors := by
  simp only [UnixSocketAcceptor.new, Interaction.ensures_call, Interaction.ensures_ite, Interaction.ensures_done]
  intro created descriptors₁ h₁
  rcases respondCreate_cases h₁ with ⟨hneg, rfl⟩ | ⟨hpos, hfresh, rfl⟩
  · exact ⟨fun _ => .unchanged (by simp [Leaks]), fun hnot => absurd hneg hnot⟩
  · refine ⟨fun hneg => absurd hneg (Int.not_lt.2 hpos), fun _ => ?_⟩
    split
    · trivial
    · simp only [Interaction.ensures_call, Interaction.ensures_ite, Interaction.ensures_done]
      rintro bound _ ⟨⟩
      refine ⟨fun hfails => .left hfresh (by simp [Leaks, hfails]), fun hbinds => ?_⟩
      rintro listened _ ⟨⟩
      refine ⟨?_, fun _ => .held hfresh rfl (by simpa [Leaks] using hbinds)⟩
      -- after `listen` fails the socket is closed
      rintro - closed _ ⟨⟩ unlinked _ ⟨⟩
      rw [filter_cons_self hfresh]
      exact .unchanged (by simpa [Leaks] using hbinds)

theorem TcpSocketAcceptor.new_spec (address : List Byte) (descriptors : List Int) :
    (TcpSocketAcceptor.new address).Ensures respondDescriptors (fun result descriptors' log =>
      Outcome descriptors descriptors' (ofFactory result).object log) descriptors := by
  simp only [TcpSocketAcceptor.new, Interaction.ensures_call, Interaction.ensures_ite, Interaction.ensures_done]
  intro created descriptors₁ h₁
  rcases respondCreate_cases h₁ with ⟨hneg, rfl⟩ | ⟨hpos, hfresh, rfl⟩
  · exact ⟨fun _ => .unchanged (by simp [Leaks]), fun hnot => absurd hneg hnot⟩
  · refine ⟨fun hneg => absurd hneg (Int.not_lt.2 hpos), fun _ => ?_⟩
    rintro set _ ⟨⟩
    refine ⟨fun hfails => .left hfresh (by simp [Leaks, hfails]), fun hsets => ?_⟩
    rintro bound _ ⟨⟩
    refine ⟨fun hfails => .left hfresh (by simp [Leaks, hfails]), fun hbinds => ?_⟩
    rintro listened _ ⟨⟩
    have hquiet := And.intro (Int.not_lt.1 hsets) (Int.not_lt.1 hbinds)
    refine ⟨?_, fun _ => .held hfresh rfl (by simpa [Leaks] using hquiet)⟩
    -- after `listen` fails the socket is closed
    rintro - closed _ ⟨⟩
    rw [filter_cons_self hfresh]
    exact .unchanged (by simpa [Leaks] using hquiet)

theorem waitConnection_spec (acceptor : Socket) (descriptors : List Int) :
    acceptor.waitConnection.Ensures respondDescriptors (fun result descriptors' log =>
      Outcome descriptors descriptors' result log) descriptors := by
  simp only [Socket.waitConnection, Interaction.ensures_call, Interaction.ensures_ite, Interaction.ensures_done]
  intro accepted descriptors₁ h₁
  rcases respondCreate_cases h₁ with ⟨hneg, rfl⟩ | ⟨hnonneg, hfresh, rfl⟩
  · refine ⟨fun hpos => absurd hneg (Int.not_lt.2 (Int.le_of_lt hpos)), fun _ => .unchanged ?_⟩
    simpa [Leaks] using Int.ne_of_lt hneg
  · -- the code takes the descriptor 0 for a failure
    refine ⟨fun hpos => .held hfresh rfl ?_, fun hpos => .left hfresh ?_⟩
    · simpa [Leaks] using Int.ne_of_gt hpos
    · simpa [Leaks] using Int.le_antisymm (Int.not_lt.1 hpos) hnonneg

/-! ### The manager -/

theorem method_spec (behind address : List Byte) (family : Family) (method : Method) (descriptors : List Int) :
    (family.method behind address method).Ensures respondDescriptors (fun result descriptors' log =>
      Outcome descriptors descriptors' (ofFactory result).object log) descriptors := by
  cases family with
  | unix =>
    cases method with
    | createClient => exact createClient_spec .unix (UnixSocket.connect_spec behind) address descriptors
    | createServer => exact UnixSocketAcceptor.new_spec behind address descriptors
  | inet =>
    cases method with
    | createClient => exact createClient_spec .inet TcpSocket.connect_spec address descriptors
    | createServer => exact TcpSocketAcceptor.new_spec address descriptors

theorem Result.object_catchIo (result : Result Socket) : result.catchIo.object = result.object := by
  cases result with
  | ok object => rfl
  | error e => cases e <;> rfl

theorem manage_spec (registered : List Family) (behind address : List Byte) (method : Method)
    (descriptors : List Int) :
    (manage registered behind (IoLineManager.create method (registered.map factoryOf) address)).Ensures
      respondDescriptors (fun result descriptors' log => Outcome descriptors descriptors' result.object log)
        descriptors := by
  rcases IoLineManager.create_cases method (registered.map factoryOf) address with h | h | ⟨i, baseAddress, h⟩
  · rw [h]
    exact .unchanged nofun
  · rw [h]
    exact .unchanged nofun
  · rw [h]
    refine Interaction.Ensures.bind ?_
    unfold callFactory
    split
    · refine Interaction.Ensures.bind ((method_spec _ _ _ _ _).mono fun result descriptors' log h => ?_)
      simp only [List.append_nil, Interaction.ensures_done]
      show Outcome _ _ (Result.catchIo (ofFactory result)).object _
      rw [Result.object_catchIo, List.append_nil]
      exact h
    · trivial

/-- Every destructor closes the descriptor of its object. -/
def Destroys (socket : Socket) (p : Sys Unit) : Prop :=
  ∀ descriptors, p.Ensures respondDescriptors (fun _ descriptors' log =>
    descriptors' = descriptors.filter (· ≠ socket.socket) ∧ ∀ e ∈ log, ¬ Leaks e) descriptors

theorem destroys_close (socket : Socket) : Destroys socket socket.close := by
  rintro descriptors closed _ ⟨⟩
  exact ⟨rfl, by simp [Leaks]⟩

theorem destroys_closeAndUnlink (socket : Socket) : Destroys socket socket.closeAndUnlink := by
  rintro descriptors closed _ ⟨⟩ unlinked _ ⟨⟩
  exact ⟨rfl, by simp [Leaks]⟩

theorem destroys_destroyLine (line : Socket) : Destroys line (Cppio.destroyLine line) := by
  unfold Cppio.destroyLine
  split
  · exact destroys_closeAndUnlink line
  · exact destroys_close line

theorem destroys_destroyAcceptor (acceptor : Socket) : Destroys acceptor (Cppio.destroyAcceptor acceptor) := by
  unfold Cppio.destroyAcceptor
  split
  · exact destroys_closeAndUnlink acceptor
  · exact destroys_close acceptor

/-! ### Accounting for descriptors -/

/-- A step makes an object, or fails to, or destroys one. -/
theorem next_cases {registered : List Family} {s s' : ManagedProcess} {l : SocketStep} {log : Trace}
    (h : next registered s l = some (s', log)) :
    (∃ made, Outcome s.descriptors s'.descriptors made log ∧
      (s'.acceptors ++ s'.lines).Perm (made.toList ++ (s.acceptors ++ s.lines))) ∨
    ∃ socket, (s.acceptors ++ s.lines).Perm (socket :: (s'.acceptors ++ s'.lines)) ∧
      s'.descriptors = s.descriptors.filter (· ≠ socket.socket) ∧ ∀ e ∈ log, ¬ Leaks e := by
  have hlines : ∀ made : Option Socket, (s.acceptors ++ (made.toList ++ s.lines)).Perm
      (made.toList ++ (s.acceptors ++ s.lines)) := by
    intro made
    rw [← List.append_assoc, ← List.append_assoc]
    exact List.perm_append_comm.append_right _
  cases l with
  | createServer behind address replies =>
    obtain ⟨result, descriptors, log, houtcome, heq⟩ :=
      (manage_spec registered behind address .createServer _).of_map_play h
    cases heq
    exact Or.inl ⟨_, houtcome, by rw [List.append_assoc]⟩
  | createClient behind address replies =>
    obtain ⟨result, descriptors, log, houtcome, heq⟩ :=
      (manage_spec registered behind address .createClient _).of_map_play h
    cases heq
    exact Or.inl ⟨_, houtcome, hlines _⟩
  | waitConnection acceptor replies =>
    simp only [next] at h
    split at h
    · obtain ⟨result, descriptors, log, houtcome, heq⟩ := (waitConnection_spec acceptor _).of_map_play h
      cases heq
      exact Or.inl ⟨_, houtcome, hlines _⟩
    · cases h
  | destroyLine line replies =>
    simp only [next] at h
    split at h
    · rename_i hmem
      obtain ⟨result, descriptors, log, hdestroys, heq⟩ := (destroys_destroyLine line _).of_map_play h
      cases heq
      refine Or.inr ⟨line, ?_, hdestroys⟩
      exact ((List.perm_cons_erase hmem).append_left _).trans List.perm_middle
    · cases h
  | destroyAcceptor acceptor replies =>
    simp only [next] at h
    split at h
    · rename_i hmem
      obtain ⟨result, descriptors, log, hdestroys, heq⟩ := (destroys_destroyAcceptor acceptor _).of_map_play h
      cases heq
      exact Or.inr ⟨acceptor, (List.perm_cons_erase hmem).append_right _, hdestroys⟩
    · cases h

/-- The open descriptors are the others, those that are held and those that are left, and no two of these are one. -/
structure Accounts (others descriptors held left : List Int) : Prop where
  nodup : (held ++ left).Nodup
  own : ∀ fd ∈ held ++ left, fd ∉ others
  open_iff : ∀ fd, fd ∈ descriptors ↔ fd ∈ others ∨ fd ∈ held ++ left

variable {others held left : List Int} {fd : Int}

theorem Accounts.perm {held' left' : List Int} (h : Accounts others descriptors held left)
    (hperm : (held' ++ left').Perm (held ++ left)) : Accounts others descriptors held' left' where
  nodup := hperm.nodup_iff.2 h.nodup
  own := fun fd hfd => h.own fd (hperm.mem_iff.1 hfd)
  open_iff := fun fd => by rw [h.open_iff, hperm.mem_iff]

theorem Accounts.hold (h : Accounts others descriptors held left) (hfd : fd ∉ descriptors) :
    Accounts others (fd :: descriptors) (fd :: held) left where
  nodup := List.nodup_cons.2 ⟨fun hmem => hfd ((h.open_iff fd).2 (Or.inr hmem)), h.nodup⟩
  own := by
    intro fd' hmem
    rcases List.mem_cons.1 hmem with rfl | hmem
    · exact fun hother => hfd ((h.open_iff _).2 (Or.inl hother))
    · exact h.own fd' hmem
  open_iff := by
    intro fd'
    rw [List.mem_cons, List.cons_append, List.mem_cons, h.open_iff]
    exact or_left_comm

theorem Accounts.leave (h : Accounts others descriptors held left) (hfd : fd ∉ descriptors) :
    Accounts others (fd :: descriptors) held (fd :: left) :=
  (h.hold hfd).perm List.perm_middle

theorem Accounts.close (h : Accounts others descriptors (fd :: held) left) :
    Accounts others (descriptors.filter (· ≠ fd)) held left := by
  obtain ⟨hnot, hnodup⟩ := List.nodup_cons.1 h.nodup
  refine ⟨hnodup, fun fd' hmem => h.own fd' (List.mem_cons_of_mem _ hmem), fun fd' => ?_⟩
  rw [List.mem_filter, h.open_iff, decide_eq_true_iff, List.cons_append, List.mem_cons]
  constructor
  · rintro ⟨hother | heq | hmem, hne⟩
    · exact Or.inl hother
    · exact absurd heq hne
    · exact Or.inr hmem
  · rintro (hother | hmem)
    · exact ⟨Or.inl hother, fun heq => h.own fd List.mem_cons_self (heq ▸ hother)⟩
    · exact ⟨Or.inr (Or.inr hmem), fun heq => hnot (heq ▸ hmem)⟩

/-- Something is left open exactly if a call leaked. -/
def Inv (others : List Int) (tr : Trace) (s : ManagedProcess) : Prop :=
  ∃ left, Accounts others s.descriptors s.held left ∧ (left = [] ↔ ∀ e ∈ tr, ¬ Leaks e)

theorem inv_step {registered : List Family} {s s' : ManagedProcess} {l : SocketStep} {tr log : Trace}
    (h : Inv others tr s) (hnext : next registered s l = some (s', log)) : Inv others (tr ++ log) s' := by
  obtain ⟨left, haccounts, hleft⟩ := h
  have hquiet : (∀ e ∈ log, ¬ Leaks e) → (left = [] ↔ ∀ e ∈ tr ++ log, ¬ Leaks e) := by
    intro hlog
    rw [hleft, List.forall_mem_append, and_iff_left hlog]
  rcases next_cases hnext with ⟨made, houtcome, hperm⟩ | ⟨socket, hperm, hdescriptors, hlog⟩
  · have hheld : s'.held.Perm (made.toList.map Socket.socket ++ s.held) := by
      rw [held, held, ← List.map_append]
      exact hperm.map _
    generalize hdescriptors : s'.descriptors = descriptors' at houtcome
    cases houtcome with
    | unchanged hlog =>
      refine ⟨left, ?_, hquiet hlog⟩
      rw [hdescriptors]
      exact haccounts.perm (hheld.append_right left)
    | held hfresh hsocket hlog =>
      refine ⟨left, ?_, hquiet hlog⟩
      rw [hdescriptors]
      subst hsocket
      exact (haccounts.hold hfresh).perm (hheld.append_right left)
    | @left log fd hfresh hleaks =>
      obtain ⟨e, he, hleak⟩ := hleaks
      refine ⟨fd :: left, ?_, nofun, fun hall => absurd hleak (hall e (List.mem_append_right tr he))⟩
      rw [hdescriptors]
      exact (haccounts.leave hfresh).perm (hheld.append_right (fd :: left))
  · have hheld : s.held.Perm (socket.socket :: s'.held) := hperm.map _
    refine ⟨left, ?_, hquiet hlog⟩
    rw [hdescriptors]
    exact (haccounts.perm (hheld.symm.append_right _)).close

theorem Inv.balanced {tr : Trace} {s : ManagedProcess} (h : Inv others tr s) :
    Balanced others s ↔ ∀ e ∈ tr, ¬ Leaks e := by
  obtain ⟨left, haccounts, hleft⟩ := h
  rw [← hleft]
  constructor
  · intro hbalanced
    refine List.eq_nil_iff_forall_not_mem.2 fun fd hmem => ?_
    -- what is left is open, but it is neither one of the others nor held
    have hmem' : fd ∈ s.held ++ left := List.mem_append_right _ hmem
    rcases (hbalanced fd).1 ((haccounts.open_iff fd).2 (Or.inr hmem')) with hother | hheld
    · exact haccounts.own fd hmem' hother
    · exact (List.nodup_append.1 haccounts.nodup).2.2 fd hheld fd hmem rfl
  · rintro rfl fd
    rw [haccounts.open_iff, List.append_nil]

/-- In every run the open descriptors are the others and those that are held, exactly if no `connect`, `bind` or
`setsockopt` failed and no accepted connection got the descriptor 0. -/
theorem balanced_of_run (registered : List Family) (others : List Int) : ∀ tr s,
    (machine registered).Run (start others) tr s → (Balanced others s ↔ ∀ e ∈ tr, ¬ Leaks e) := by
  intro tr s hrun
  have hstart : Inv others [] (start others) :=
    ⟨[], ⟨List.nodup_nil, nofun, fun fd => (or_iff_left List.not_mem_nil).symm⟩, ⟨fun _ => nofun, fun _ => rfl⟩⟩
  have hinv : Inv others tr s := hrun.invariant (Inv others) hstart fun _ _ _ _ _ h _ hnext => inv_step h hnext
  exact hinv.balanced

/-- A server that cannot listen, one that can, and a client that gets no socket. -/
theorem balanced_of_run_failures : ∃ tr s, (machine [.unix, .inet]).Run (start [0, 1, 2]) tr s ∧
    s.acceptors = [⟨.inet, ascii "*:6000", 3⟩] ∧ s.lines = [] ∧ Balanced [0, 1, 2] s := by
  have h : ((machine [.unix, .inet]).exec (start [0, 1, 2]) [
      .createServer [] (ascii "local:///tmp/foo") [⟨3, 0⟩, ⟨0, 0⟩, ⟨-1, 1⟩, ⟨0, 0⟩, ⟨0, 0⟩],
      .createServer [] (ascii "tcp://*:6000") [⟨3, 0⟩, ⟨0, 0⟩, ⟨0, 0⟩, ⟨0, 0⟩],
      .createClient [] (ascii "tcp://127.0.0.1:6000") [⟨-1, 24⟩]]).any (fun r => decide (
        r.1.acceptors = [⟨.inet, ascii "*:6000", 3⟩] ∧ r.1.lines = [] ∧ ∀ e ∈ r.2, ¬ Leaks e)) = true := by
    decide +kernel
  obtain ⟨⟨s, tr⟩, hexec, hdecide⟩ := (Option.any_eq_true _ _).1 h
  obtain ⟨hacceptors, hlines, hleaks⟩ := of_decide_eq_true hdecide
  have hrun := Machine.RunWhere.of_exec hexec
  exact ⟨tr, s, hrun, hacceptors, hlines, (balanced_of_run _ _ tr s hrun).2 hleaks⟩

/-- A client that cannot connect: no line is returned, and the socket stays open. -/
theorem not_balanced : ∃ tr s, (machine [.unix, .inet]).Run (start [0, 1, 2]) tr s ∧
    s.descriptors = [3, 0, 1, 2] ∧ s.acceptors = [] ∧ s.lines = [] ∧ ¬ Balanced [0, 1, 2] s := by
  have h : ((machine [.unix, .inet]).exec (start [0, 1, 2])
      [.createClient [] (ascii "tcp://127.0.0.1:6000") [⟨3, 0⟩, ⟨-1, 111⟩]]).any (fun r => decide (
        r.1.descriptors = [3, 0, 1, 2] ∧ r.1.acceptors = [] ∧ r.1.lines = [])) = true := by
    decide +kernel
  obtain ⟨⟨s, tr⟩, hexec, hdecide⟩ := (Option.any_eq_true _ _).1 h
  obtain ⟨hdescriptors, hacceptors, hlines⟩ := of_decide_eq_true hdecide
  refine ⟨tr, s, Machine.RunWhere.of_exec hexec, hdescriptors, hacceptors, hlines, fun hbalanced => ?_⟩
  have hmem := (hbalanced 3).1 (by rw [show s.descriptors = _ from hdescriptors]; simp)
  rw [held, show s.acceptors = _ from hacceptors, show s.lines = _ from hlines] at hmem
  simp at hmem

end ManagedProcess

end Cppio
