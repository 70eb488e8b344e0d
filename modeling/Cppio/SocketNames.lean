import Cppio.UnixAddress
import Cppio.Lib.Transition

/-!
# Names of Unix sockets

A process creates and destroys the lines and acceptors of a `UnixSocketFactory` in any order.  The path name of an
acceptor is its own, but the destructor of every Unix socket unlinks the address of the socket, and a client has the
address of the acceptor it is connected to.  An acceptor keeps its name as long as no line with that address is
destroyed, and the first one that is takes the name away (`names_kept`).
-/

namespace Cppio

/-- A path name: it does not exist, its socket has been closed, or it is bound to the socket with a descriptor. -/
inductive PathName where
  | free
  | stale
  | bound (fd : Int)
deriving DecidableEq, Repr

/-- The system: the open descriptors, those that listen, and the path names.  Only open sockets listen or are bound.
-/
structure System where
  descriptors : List Int
  listening : List Int
  names : List Byte → PathName
  listening_open : ∀ fd ∈ listening, fd ∈ descriptors
  names_open : ∀ path fd, names path = .bound fd → fd ∈ descriptors

namespace System

/-- A new descriptor. -/
def create (os : System) (fd : Int) : System where
  descriptors := fd :: os.descriptors
  listening := os.listening
  names := os.names
  listening_open := fun fd h => List.mem_cons_of_mem _ (os.listening_open fd h)
  names_open := fun path fd h => List.mem_cons_of_mem _ (os.names_open path fd h)

def bind (os : System) (fd : Int) (path : List Byte) (hfd : fd ∈ os.descriptors) : System where
  descriptors := os.descriptors
  listening := os.listening
  names := fun p => if p = path then .bound fd else os.names p
  listening_open := os.listening_open
  names_open := by
    intro p fd' h
    split at h
    · cases h
      exact hfd
    · exact os.names_open p fd' h

def listen (os : System) (fd : Int) (hfd : fd ∈ os.descriptors) : System where
  descriptors := os.descriptors
  listening := fd :: os.listening
  names := os.names
  listening_open := by
    intro fd' h
    rcases List.mem_cons.1 h with rfl | h
    · exact hfd
    · exact os.listening_open fd' h
  names_open := os.names_open

def close (os : System) (fd : Int) : System where
  descriptors := os.descriptors.filter (· ≠ fd)
  listening := os.listening.filter (· ≠ fd)
  names := fun p => if os.names p = .bound fd then .stale else os.names p
  listening_open := by
    intro fd' h
    rw [List.mem_filter] at h ⊢
    exact ⟨os.listening_open fd' h.1, h.2⟩
  names_open := by
    intro p fd' h
    split at h
    · cases h
    · rename_i hne
      rw [List.mem_filter]
      refine ⟨os.names_open p fd' h, decide_eq_true ?_⟩
      rintro rfl
      exact hne h

def unlink (os : System) (path : List Byte) : System where
  descriptors := os.descriptors
  listening := os.listening
  names := fun p => if p = path then .free else os.names p
  listening_open := os.listening_open
  names_open := by
    intro p fd h
    split at h
    · cases h
    · exact os.names_open p fd h

/-- A call that makes a descriptor fails, or replies with one that is not open. -/
def respondCreate (os : System) (reply : Reply) : Option System :=
  if reply.rc < 0 then some os
  else if reply.rc ∈ os.descriptors then none
  else some (os.create reply.rc)

/-- `bind` creates a path name, unless it fails; `connect` succeeds just if the name is bound to a socket that
listens; `unlink` removes the name. -/
def respond (os : System) : Syscall → Reply → Option System
  | .socket _, reply | .accept _, reply => os.respondCreate reply
  | .bind fd (.unix path), reply =>
    if reply.rc < 0 then some os
    else if h : os.names path = .free ∧ fd ∈ os.descriptors then some (os.bind fd path h.2)
    else none
  | .listen fd _, reply =>
    if reply.rc < 0 then some os else if h : fd ∈ os.descriptors then some (os.listen fd h) else none
  | .connect _ (.unix path), reply =>
    if 0 ≤ reply.rc ↔ ∃ fd ∈ os.listening, os.names path = .bound fd then some os else none
  | .close fd, _ => some (os.close fd)
  | .unlink path, _ => some (os.unlink path)
  | .setsockopt _, _ | .bind _ (.inet _ _), _ | .connect _ (.inet _ _), _ => some os

/-- No descriptors and no names. -/
def fresh : System where
  descriptors := []
  listening := []
  names := fun _ => .free
  listening_open := nofun
  names_open := nofun

/-! ### What calls keep -/

/-- What is open, listens or is bound stays so. -/
structure Keeps (os os' : System) : Prop where
  descriptors : ∀ fd ∈ os.descriptors, fd ∈ os'.descriptors
  listening : ∀ fd ∈ os.listening, fd ∈ os'.listening
  names : ∀ path fd, os.names path = .bound fd → os'.names path = .bound fd

variable {os os' os'' : System} {fd : Int} {path : List Byte}

theorem Keeps.refl (os : System) : os.Keeps os := ⟨fun _ h => h, fun _ h => h, fun _ _ h => h⟩

theorem Keeps.trans (h : os.Keeps os') (h' : os'.Keeps os'') : os.Keeps os'' where
  descriptors fd hfd := h'.descriptors fd (h.descriptors fd hfd)
  listening fd hfd := h'.listening fd (h.listening fd hfd)
  names path fd hpath := h'.names path fd (h.names path fd hpath)

theorem keeps_create (os : System) (fd : Int) : os.Keeps (os.create fd) :=
  ⟨fun _ h => List.mem_cons_of_mem _ h, fun _ h => h, fun _ _ h => h⟩

theorem keeps_bind (hfd : fd ∈ os.descriptors) (hfree : os.names path = .free) : os.Keeps (os.bind fd path hfd) := by
  refine ⟨fun _ h => h, fun _ h => h, fun p fd' h => ?_⟩
  have hne : p ≠ path := by
    rintro rfl
    rw [hfree] at h
    cases h
  exact (if_neg hne).trans h

theorem keeps_listen (hfd : fd ∈ os.descriptors) : os.Keeps (os.listen fd hfd) :=
  ⟨fun _ h => h, fun _ h => List.mem_cons_of_mem _ h, fun _ _ h => h⟩

/-- Closing a socket and unlinking a name concern no other socket and no other name. -/
theorem keeps_close_unlink (h : os.Keeps os') (hfd : fd ∉ os.descriptors)
    (hpath : ∀ fd', os.names path ≠ .bound fd') : os.Keeps ((os'.close fd).unlink path) := by
  have hne : ∀ fd' ∈ os.descriptors, fd' ≠ fd := by
    rintro fd' hmem rfl
    exact hfd hmem
  refine ⟨fun fd' hmem => ?_, fun fd' hmem => ?_, fun p fd' hp => ?_⟩
  · exact List.mem_filter.2 ⟨h.descriptors fd' hmem, decide_eq_true (hne fd' hmem)⟩
  · exact List.mem_filter.2 ⟨h.listening fd' hmem, decide_eq_true (hne fd' (os.listening_open fd' hmem))⟩
  · have hp' : p ≠ path := by
      rintro rfl
      exact hpath fd' hp
    have hbound : os'.names p ≠ .bound fd := by
      rw [h.names p fd' hp]
      intro heq
      exact hne fd' (os.names_open p fd' hp) (PathName.bound.inj heq)
    show (if p = path then PathName.free else if os'.names p = .bound fd then .stale else os'.names p) = _
    rw [if_neg hp', if_neg hbound, h.names p fd' hp]

theorem respondCreate_cases {reply : Reply} (h : os.respondCreate reply = some os') :
    (reply.rc < 0 ∧ os' = os) ∨ (0 ≤ reply.rc ∧ reply.rc ∉ os.descriptors ∧ os' = os.create reply.rc) := by
  unfold respondCreate at h
  split at h
  · cases h
    exact Or.inl ⟨‹_›, rfl⟩
  · split at h
    · cases h
    · cases h
      exact Or.inr ⟨Int.not_lt.1 ‹_›, ‹_›, rfl⟩

end System

/-- The system, and the lines and acceptors of a `UnixSocketFactory` that are alive. -/
structure UnixProcess where
  os : System
  lines : List Socket
  acceptors : List Socket

namespace UnixProcess

abbrev Trace := List (Syscall × Reply)

/-- The addresses have at most 13 bytes. -/
def next (s : UnixProcess) : SocketStep → Option (UnixProcess × Trace)
  | .createServer behind address replies =>
    if address.length ≤ 13 then
      ((UnixSocketFactory.createServer behind address).play System.respond s.os replies).map
        fun (result, os, log) => ({ s with os := os, acceptors := result.toOption.toList ++ s.acceptors }, log)
    else none
  | .createClient behind address replies =>
    if address.length ≤ 13 then
      ((UnixSocketFactory.createClient behind address).play System.respond s.os replies).map
        fun (result, os, log) => ({ s with os := os, lines := result.toOption.toList ++ s.lines }, log)
    else none
  | .waitConnection acceptor replies =>
    if acceptor ∈ s.acceptors then
      (acceptor.waitConnection.play System.respond s.os replies).map
        fun (result, os, log) => ({ s with os := os, lines := result.toList ++ s.lines }, log)
    else none
  | .destroyLine line replies =>
    if line ∈ s.lines then
      ((UnixSocket.destroy line).play System.respond s.os replies).map
        fun (_, os, log) => ({ s with os := os, lines := s.lines.erase line }, log)
    else none
  | .destroyAcceptor acceptor replies =>
    if acceptor ∈ s.acceptors then
      ((UnixSocketAcceptor.destroy acceptor).play System.respond s.os replies).map
        fun (_, os, log) => ({ s with os := os, acceptors := s.acceptors.erase acceptor }, log)
    else none

def machine : Machine UnixProcess SocketStep (Syscall × Reply) := ⟨next⟩

/-- No line is created yet. -/
def start (os : System) : UnixProcess := { os := os, lines := [], acceptors := [] }

/-- The path name of an address is bound to the socket of the acceptor, which listens. -/
def Listens (os : System) (acceptor : Socket) : Prop :=
  os.names (CString.contents acceptor.address) = .bound acceptor.socket ∧ acceptor.socket ∈ os.listening

/-- The acceptors that are alive have their names, and clients can connect to them. -/
structure Kept (s : UnixProcess) : Prop where
  listens : ∀ acceptor ∈ s.acceptors, Listens s.os acceptor
  connects : ∀ acceptor ∈ s.acceptors, ∀ behind replies result os log,
    (UnixSocketFactory.createClient behind acceptor.address).play System.respond s.os replies =
      some (result, os, log) → (∀ reply, (.socket .unix, reply) ∈ log → 0 ≤ reply.rc) → ∃ line, result = .ok line

/-- No line is destroyed that has the path name of an acceptor. -/
def Spares (s : UnixProcess) : SocketStep → Prop
  | .destroyLine line _ =>
    ∀ acceptor ∈ s.acceptors, CString.contents acceptor.address ≠ CString.contents line.address
  | _ => True

instance (s : UnixProcess) (l : SocketStep) : Decidable (s.Spares l) :=
  match l with
  | .destroyLine line _ => inferInstanceAs (Decidable
      (∀ acceptor ∈ s.acceptors, CString.contents acceptor.address ≠ CString.contents line.address))
  | .createServer _ _ _ | .createClient _ _ _ | .waitConnection _ _ | .destroyAcceptor _ _ => isTrue trivial

/-! ### The methods -/

/-- What a method that may make an object does to the others. -/
structure Makes (os os' : System) (made : Option Socket) : Prop where
  keeps : os.Keeps os'
  fresh : ∀ socket, made = some socket → socket.socket ∉ os.descriptors ∧ socket.socket ∈ os'.descriptors

variable {os os' : System}

theorem Makes.none (h : os.Keeps os') : Makes os os' none := ⟨h, fun _ hmade => by cases hmade⟩

theorem Makes.create {fd : Int} (hfresh : fd ∉ os.descriptors) (h : (os.create fd).Keeps os') {socket : Socket}
    (hsocket : socket.socket = fd) : Makes os os' (some socket) := by
  refine ⟨(os.keeps_create fd).trans h, ?_⟩
  rintro _ ⟨⟩
  rw [hsocket]
  exact ⟨hfresh, h.descriptors fd List.mem_cons_self⟩

theorem createServer_spec (behind : List Byte) {address : List Byte} (hlen : address.length ≤ 13) :
    (UnixSocketFactory.createServer behind address).Ensures System.respond (fun result os' _ =>
      Makes os os' result.toOption ∧
        ∀ acceptor, result = .ok acceptor → acceptor.address = address ∧ Listens os' acceptor) os := by
  have hcontents := (CString.length_contents_le address).trans hlen
  rw [UnixSocketFactory.createServer, UnixSocketAcceptor.new, passedName_of_length_le hcontents]
  simp only [Interaction.ensures_call, Interaction.ensures_ite, Interaction.ensures_done]
  intro created os₁ h₁
  rcases System.respondCreate_cases h₁ with ⟨hneg, rfl⟩ | ⟨hpos, hfresh, rfl⟩
  · exact ⟨fun _ => ⟨Makes.none (.refl _), by rintro acceptor ⟨⟩⟩, fun hnot => absurd hneg hnot⟩
  · refine ⟨fun hneg => absurd hneg (Int.not_lt.2 hpos), fun _ bound os₂ h₂ => ?_⟩
    simp only [System.respond] at h₂
    split at h₂
    · -- `bind` fails: the new socket stays open
      rename_i hfails
      cases h₂
      exact ⟨fun _ => ⟨Makes.none (os.keeps_create _), by rintro acceptor ⟨⟩⟩, fun hnot => absurd hfails hnot⟩
    · rename_i hbinds
      refine ⟨fun hfails => absurd hfails hbinds, fun _ listened os₃ h₃ => ?_⟩
      split at h₂ <;> cases h₂
      rename_i hfree
      have hkeeps := System.keeps_bind hfree.2 hfree.1
      simp only [System.respond] at h₃
      split at h₃
      · -- `listen` fails: the new socket is closed and the new name removed
        rename_i hfails
        cases h₃
        refine ⟨fun _ closed os₄ h₄ unlinked os₅ h₅ => ?_, fun hnot => absurd hfails hnot⟩
        cases h₄
        cases h₅
        refine ⟨Makes.none (System.keeps_close_unlink ((os.keeps_create _).trans hkeeps) hfresh ?_), ?_⟩
        · intro fd' hbound
          rw [show os.names _ = .free from hfree.1] at hbound
          cases hbound
        · rintro acceptor ⟨⟩
      · rename_i hlistens
        refine ⟨fun hfails => absurd hfails hlistens, fun _ => ?_⟩
        split at h₃ <;> cases h₃
        refine ⟨Makes.create hfresh (hkeeps.trans (System.keeps_listen _)) rfl, ?_⟩
        rintro _ ⟨⟩
        exact ⟨rfl, if_pos rfl, List.mem_cons_self⟩

theorem createClient_spec (behind : List Byte) (address : List Byte) :
    (UnixSocketFactory.createClient behind address).Ensures System.respond (fun result os' _ =>
      Makes os os' result.toOption) os := by
  refine Interaction.Ensures.bind ?_
  simp only [Socket.new, Interaction.ensures_call, Interaction.ensures_ite, Interaction.ensures_done]
  intro created os₁ h₁
  rcases System.respondCreate_cases h₁ with ⟨hneg, rfl⟩ | ⟨hpos, hfresh, rfl⟩
  · exact ⟨fun _ => Makes.none (.refl _), fun hnot => absurd hneg hnot⟩
  · refine ⟨fun hneg => absurd hneg (Int.not_lt.2 hpos), fun _ => Interaction.Ensures.bind ?_⟩
    rw [UnixSocket.connect]
    split
    · trivial
    · simp only [Interaction.ensures_call, Interaction.ensures_ite, Interaction.ensures_done]
      intro connected os₂ h₂
      simp only [System.respond] at h₂
      split at h₂ <;> cases h₂
      exact ⟨fun _ => Makes.none (os.keeps_create _), fun _ => Makes.create hfresh (.refl _) rfl⟩

theorem waitConnection_spec (acceptor : Socket) :
    acceptor.waitConnection.Ensures System.respond (fun result os' _ => Makes os os' result) os := by
  simp only [Socket.waitConnection, Interaction.ensures_call, Interaction.ensures_ite, Interaction.ensures_done]
  intro accepted os₁ h₁
  rcases System.respondCreate_cases h₁ with ⟨hneg, rfl⟩ | ⟨-, hfresh, rfl⟩
  · exact ⟨fun hpos => absurd hneg (Int.not_lt.2 (Int.le_of_lt hpos)), fun _ => Makes.none (.refl _)⟩
  · exact ⟨fun _ => Makes.create hfresh (.refl _) rfl, fun _ => Makes.none (os.keeps_create _)⟩

theorem closeAndUnlink_spec (socket : Socket) : socket.closeAndUnlink.Ensures System.respond (fun _ os' _ =>
    os' = (os.close socket.socket).unlink (CString.contents socket.address)) os := by
  rintro closed _ ⟨⟩ unlinked _ ⟨⟩
  rfl

/-- A step makes an acceptor or a line, or fails to, or destroys one. -/
theorem next_cases {s s' : UnixProcess} {l : SocketStep} {es : Trace} (h : next s l = some (s', es)) :
    (∃ made os', Makes s.os os' made ∧ Spares s l ∧
      (∀ acceptor, made = some acceptor → acceptor.address.length ≤ 13 ∧ Listens os' acceptor) ∧
      s' = { s with os := os', acceptors := made.toList ++ s.acceptors }) ∨
    (∃ made os', Makes s.os os' made ∧ Spares s l ∧ s' = { s with os := os', lines := made.toList ++ s.lines }) ∨
    (∃ line ∈ s.lines, ∃ replies, l = .destroyLine line replies ∧
      s' = { s with os := (s.os.close line.socket).unlink (CString.contents line.address),
                    lines := s.lines.erase line }) ∨
    ∃ acceptor ∈ s.acceptors, Spares s l ∧
      s' = { s with os := (s.os.close acceptor.socket).unlink (CString.contents acceptor.address),
                    acceptors := s.acceptors.erase acceptor } := by
  cases l with
  | createServer behind address replies =>
    simp only [next] at h
    split at h
    · rename_i hlen
      obtain ⟨result, os', log, ⟨hmakes, hlistens⟩, heq⟩ := (createServer_spec behind hlen).of_map_play h
      cases heq
      refine Or.inl ⟨result.toOption, os', hmakes, trivial, fun acceptor hmade => ?_, rfl⟩
      cases result with
      | error e => cases hmade
      | ok made =>
        cases hmade
        obtain ⟨haddress, hmade⟩ := hlistens _ rfl
        exact ⟨haddress ▸ hlen, hmade⟩
    · cases h
  | createClient behind address replies =>
    simp only [next] at h
    split at h
    · obtain ⟨result, os', log, hmakes, heq⟩ := (createClient_spec behind address).of_map_play h
      cases heq
      exact Or.inr (Or.inl ⟨_, os', hmakes, trivial, rfl⟩)
    · cases h
  | waitConnection acceptor replies =>
    simp only [next] at h
    split at h
    · obtain ⟨result, os', log, hmakes, heq⟩ := (waitConnection_spec acceptor).of_map_play h
      cases heq
      exact Or.inr (Or.inl ⟨_, os', hmakes, trivial, rfl⟩)
    · cases h
  | destroyLine line replies =>
    simp only [next] at h
    split at h
    · rename_i hmem
      obtain ⟨result, os', log, hos, heq⟩ := (closeAndUnlink_spec line).of_map_play h
      cases heq
      exact Or.inr (Or.inr (Or.inl ⟨line, hmem, replies, rfl, by rw [hos]⟩))
    · cases h
  | destroyAcceptor acceptor replies =>
    simp only [next] at h
    split at h
    · rename_i hmem
      obtain ⟨result, os', log, hos, heq⟩ := (closeAndUnlink_spec acceptor).of_map_play h
      cases heq
      exact Or.inr (Or.inr (Or.inr ⟨acceptor, hmem, trivial, by rw [hos]⟩))
    · cases h

/-! ### The invariant -/

/-- The objects have different descriptors, all of them open. -/
structure Separate (os : System) (objects : List Socket) : Prop where
  nodup : (objects.map Socket.socket).Nodup
  opened : ∀ socket ∈ objects, socket.socket ∈ os.descriptors

theorem Separate.add {objects objects' : List Socket} {made : Option Socket} (h : Separate os objects)
    (hmakes : Makes os os' made) (hperm : objects'.Perm (made.toList ++ objects)) : Separate os' objects' := by
  cases made with
  | none =>
    refine ⟨(hperm.map _).nodup_iff.2 h.nodup, fun socket hmem => ?_⟩
    exact hmakes.keeps.descriptors _ (h.opened socket (hperm.mem_iff.1 hmem))
  | some new =>
    obtain ⟨hfresh, hopen⟩ := hmakes.fresh new rfl
    refine ⟨(hperm.map _).nodup_iff.2 (List.nodup_cons.2 ⟨fun hmem => ?_, h.nodup⟩), fun socket hmem => ?_⟩
    · obtain ⟨socket, hmem, heq⟩ := List.mem_map.1 hmem
      exact hfresh (heq ▸ h.opened socket hmem)
    · rcases List.mem_cons.1 (hperm.mem_iff.1 hmem) with rfl | hmem
      · exact hopen
      · exact hmakes.keeps.descriptors _ (h.opened socket hmem)

/-- An object that is destroyed takes away its own descriptor only. -/
theorem Separate.remove {objects objects' : List Socket} {socket : Socket} (h : Separate os objects)
    (hperm : objects.Perm (socket :: objects')) (path : List Byte) :
    Separate ((os.close socket.socket).unlink path) objects' ∧
      ∀ other ∈ objects', other.socket ≠ socket.socket := by
  obtain ⟨hnot, hnodup⟩ := List.nodup_cons.1 ((hperm.map Socket.socket).nodup_iff.1 h.nodup)
  have hne : ∀ other ∈ objects', other.socket ≠ socket.socket := fun other hmem heq =>
    hnot (List.mem_map.2 ⟨other, hmem, heq⟩)
  refine ⟨⟨hnodup, fun other hmem => ?_⟩, hne⟩
  exact List.mem_filter.2 ⟨h.opened other (hperm.mem_iff.2 (List.mem_cons_of_mem _ hmem)),
    decide_eq_true (hne other hmem)⟩

/-- The acceptors have their names. -/
structure Inv (s : UnixProcess) : Prop where
  separate : Separate s.os (s.acceptors ++ s.lines)
  short : ∀ acceptor ∈ s.acceptors, acceptor.address.length ≤ 13
  listens : ∀ acceptor ∈ s.acceptors, Listens s.os acceptor

theorem Listens.mono {acceptor : Socket} (h : Listens os acceptor) (hkeeps : os.Keeps os') : Listens os' acceptor :=
  ⟨hkeeps.names _ _ h.1, hkeeps.listening _ h.2⟩

/-- Destroying a socket concerns no acceptor with another descriptor and another name. -/
theorem Listens.destroy {acceptor socket : Socket} (h : Listens os acceptor)
    (hsocket : acceptor.socket ≠ socket.socket)
    (haddress : CString.contents acceptor.address ≠ CString.contents socket.address) :
    Listens ((os.close socket.socket).unlink (CString.contents socket.address)) acceptor := by
  refine ⟨?_, List.mem_filter.2 ⟨h.2, decide_eq_true hsocket⟩⟩
  show (if _ then PathName.free else if _ then PathName.stale else os.names _) = _
  rw [if_neg haddress, if_neg, h.1]
  rw [h.1]
  exact fun heq => hsocket (PathName.bound.inj heq)

theorem inv_step {s s' : UnixProcess} {l : SocketStep} {es : Trace} (h : Inv s) (hspares : Spares s l)
    (hnext : next s l = some (s', es)) : Inv s' := by
  obtain ⟨hseparate, hshort, hlistens⟩ := h
  rcases next_cases hnext with ⟨made, os', hmakes, -, hmade, rfl⟩ | ⟨made, os', hmakes, -, rfl⟩ |
    ⟨line, hmem, replies, rfl, rfl⟩ | ⟨acceptor, hmem, -, rfl⟩
  · refine ⟨hseparate.add hmakes (by rw [List.append_assoc]), fun acceptor hmem => ?_, fun acceptor hmem => ?_⟩
    · rcases List.mem_append.1 hmem with hmem | hmem
      · exact (hmade acceptor (Option.mem_toList.1 hmem)).1
      · exact hshort acceptor hmem
    · rcases List.mem_append.1 hmem with hmem | hmem
      · exact (hmade acceptor (Option.mem_toList.1 hmem)).2
      · exact (hlistens acceptor hmem).mono hmakes.keeps
  · refine ⟨hseparate.add hmakes ?_, hshort, fun acceptor hmem => (hlistens acceptor hmem).mono hmakes.keeps⟩
    show (s.acceptors ++ (made.toList ++ s.lines)).Perm (made.toList ++ (s.acceptors ++ s.lines))
    rw [← List.append_assoc, ← List.append_assoc]
    exact List.perm_append_comm.append_right _
  · have hperm : (s.acceptors ++ s.lines).Perm (line :: (s.acceptors ++ s.lines.erase line)) :=
      ((List.perm_cons_erase hmem).append_left _).trans List.perm_middle
    obtain ⟨hseparate', hne⟩ := hseparate.remove hperm (CString.contents line.address)
    refine ⟨hseparate', hshort, fun acceptor hmem' => ?_⟩
    exact (hlistens acceptor hmem').destroy (hne acceptor (List.mem_append_left _ hmem')) (hspares acceptor hmem')
  · have hperm : (s.acceptors ++ s.lines).Perm (acceptor :: (s.acceptors.erase acceptor ++ s.lines)) :=
      (List.perm_cons_erase hmem).append_right _
    obtain ⟨hseparate', hne⟩ := hseparate.remove hperm (CString.contents acceptor.address)
    refine ⟨hseparate', fun a ha => hshort a (List.mem_of_mem_erase ha), fun a ha => ?_⟩
    have hdistinct := hne a (List.mem_append_left _ ha)
    have hbound := (hlistens a (List.mem_of_mem_erase ha)).1
    refine (hlistens a (List.mem_of_mem_erase ha)).destroy hdistinct fun heq => hdistinct ?_
    -- one name is bound to one socket
    rw [heq, (hlistens acceptor hmem).1] at hbound
    exact (PathName.bound.inj hbound).symm

/-- A client that has a socket can connect to an acceptor that listens. -/
theorem createClient_connects {address : List Byte} (hlen : address.length ≤ 13) {acceptor : Socket}
    (haddress : acceptor.address = address) (h : Listens os acceptor) (behind : List Byte) :
    (UnixSocketFactory.createClient behind address).Ensures System.respond (fun result _ log =>
      (∀ reply, (.socket .unix, reply) ∈ log → 0 ≤ reply.rc) → ∃ line, result = .ok line) os := by
  have hcontents := (CString.length_contents_le address).trans hlen
  refine Interaction.Ensures.bind ?_
  simp only [Socket.new, Interaction.ensures_call, Interaction.ensures_ite, Interaction.ensures_done]
  intro created os₁ h₁
  refine ⟨fun hneg hcreated => ?_, fun hpos => Interaction.Ensures.bind ?_⟩
  · exact absurd hneg (Int.not_lt.2 (hcreated created (List.mem_append_left _ (List.mem_singleton_self _))))
  · rw [UnixSocket.connect, passedName_of_length_le hcontents]
    simp only [Interaction.ensures_call, Interaction.ensures_ite, Interaction.ensures_done]
    intro connected os₂ h₂
    -- the acceptor still listens when the client has its socket, so `connect` cannot fail
    rcases System.respondCreate_cases h₁ with ⟨hneg, -⟩ | ⟨-, -, rfl⟩
    · exact absurd hneg hpos
    · simp only [System.respond] at h₂
      split at h₂
      · rename_i hiff
        subst haddress
        refine ⟨fun hneg => absurd hneg (Int.not_lt.2 (hiff.2 ⟨_, h.2, h.1⟩)), fun _ _ => ⟨_, rfl⟩⟩
      · cases h₂

theorem Inv.kept {s : UnixProcess} (h : Inv s) : Kept s where
  listens := h.listens
  connects := fun acceptor hmem behind _ _ _ _ hplay =>
    (createClient_connects (h.short acceptor hmem) rfl (h.listens acceptor hmem) behind).of_play hplay

/-- The name of an acceptor is gone when a line with that name is destroyed. -/
theorem spares_of_kept {s s' : UnixProcess} {l : SocketStep} {es : Trace} (hnext : next s l = some (s', es))
    (h : Kept s') : Spares s l := by
  rcases next_cases hnext with ⟨_, _, _, hspares, _⟩ | ⟨_, _, _, hspares, _⟩ | ⟨line, hmem, replies, rfl, rfl⟩ |
    ⟨_, _, hspares, _⟩
  · exact hspares
  · exact hspares
  · intro acceptor hacceptor haddress
    have hbound := (h.listens acceptor hacceptor).1
    rw [haddress] at hbound
    simp [System.unlink] at hbound
  · exact hspares

/-- As long as no line is destroyed that has the path name of an acceptor, every acceptor keeps its name and clients
can connect to it; the first such line that is destroyed ends this. -/
theorem names_kept (os : System) :
    (∀ tr s, machine.RunWhere Spares (start os) tr s → Kept s) ∧
    ∀ tr s l s' es, machine.RunWhere Spares (start os) tr s → machine.next s l = some (s', es) →
      (Kept s' ↔ Spares s l) := by
  have hinv : ∀ tr s, machine.RunWhere Spares (start os) tr s → Inv s := by
    intro tr s hrun
    refine hrun.invariant (fun _ s => Inv s) ⟨⟨List.nodup_nil, nofun⟩, nofun, nofun⟩ ?_
    exact fun _ _ _ _ _ h hspares hnext => inv_step h hspares hnext
  refine ⟨fun tr s hrun => (hinv tr s hrun).kept, fun tr s l s' es hrun hnext => ?_⟩
  exact ⟨spares_of_kept hnext, fun hspares => (inv_step (hinv tr s hrun) hspares hnext).kept⟩

/-- The line that the acceptor returned is closed: it has no address, and the acceptor keeps its name. -/
theorem names_kept_accepted : ∃ s tr, machine.RunWhere Spares (start .fresh) tr s ∧
    s.acceptors = [⟨.unix, ascii "/tmp/foo", 3⟩] ∧ s.lines = [⟨.unix, ascii "/tmp/foo", 4⟩] ∧ Kept s := by
  have h : ((machine.restrict Spares).exec (start .fresh)
      [.createServer [] (ascii "/tmp/foo") [⟨3, 0⟩, ⟨0, 0⟩, ⟨0, 0⟩],
        .createClient [] (ascii "/tmp/foo") [⟨4, 0⟩, ⟨0, 0⟩], .waitConnection ⟨.unix, ascii "/tmp/foo", 3⟩ [⟨5, 0⟩],
        .destroyLine ⟨.unix, [], 5⟩ [⟨0, 0⟩, ⟨-1, 2⟩]]).any (fun r => decide (
          r.1.acceptors = [⟨.unix, ascii "/tmp/foo", 3⟩] ∧ r.1.lines = [⟨.unix, ascii "/tmp/foo", 4⟩])) = true := by
    decide +kernel
  obtain ⟨⟨s, tr⟩, hexec, hdecide⟩ := (Option.any_eq_true _ _).1 h
  obtain ⟨hacceptors, hlines⟩ := of_decide_eq_true hdecide
  have hrun := Machine.RunWhere.of_restrict (Machine.RunWhere.of_exec hexec)
  exact ⟨s, tr, hrun, hacceptors, hlines, (names_kept .fresh).1 tr s hrun⟩

/-- A client connects and is closed: the acceptor is alive and has lost its name. -/
theorem not_kept : ∃ s tr, machine.Run (start .fresh) tr s ∧ s.acceptors = [⟨.unix, ascii "/tmp/foo", 3⟩] ∧
    s.os.names (ascii "/tmp/foo") = .free ∧ ¬ Kept s := by
  have h : (machine.exec (start .fresh) [.createServer [] (ascii "/tmp/foo") [⟨3, 0⟩, ⟨0, 0⟩, ⟨0, 0⟩],
      .createClient [] (ascii "/tmp/foo") [⟨4, 0⟩, ⟨0, 0⟩],
      .destroyLine ⟨.unix, ascii "/tmp/foo", 4⟩ [⟨0, 0⟩, ⟨0, 0⟩]]).any (fun r => decide (
        r.1.acceptors = [⟨.unix, ascii "/tmp/foo", 3⟩] ∧ r.1.os.names (ascii "/tmp/foo") = .free)) = true := by
    decide +kernel
  obtain ⟨⟨s, tr⟩, hexec, hdecide⟩ := (Option.any_eq_true _ _).1 h
  obtain ⟨hacceptors, hname⟩ := of_decide_eq_true hdecide
  refine ⟨s, tr, Machine.RunWhere.of_exec hexec, hacceptors, hname, fun hkept => ?_⟩
  have hmem : ⟨.unix, ascii "/tmp/foo", 3⟩ ∈ s.acceptors := hacceptors ▸ List.mem_singleton_self _
  have hbound := (hkept.listens _ hmem).1
  rw [show CString.contents _ = ascii "/tmp/foo" from rfl, hname] at hbound
  cases hbound

end UnixProcess

end Cppio
