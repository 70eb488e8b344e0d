import Cppio.InprocRegistry
import Cppio.Lib.Transition
import Mathlib.Data.List.Nodup

/-!
# Many factories in one process

A process creates and destroys factories, acceptors and clients in any order.  The registry is shared by all
factories, and the destructor of a factory clears it.  It holds exactly the living acceptors and the waiting clients
as long as a factory is destroyed only when there are none of them (`exclusive_of_run`); any other destruction breaks
this at once.
-/

namespace Cppio

/-- The objects of a process, and its registry. -/
structure Process where
  registry : Registry
  /-- The number the next object gets. -/
  fresh : Nat
  /-- The factories that are alive. -/
  factories : List Nat
  /-- The acceptors that are alive. -/
  acceptors : List Handle
  /-- The lines whose clients wait in `createClient`. -/
  waiting : List Handle
deriving DecidableEq, Repr

namespace Process

def start : Process := { registry := .empty, fresh := 0, factories := [], acceptors := [], waiting := [] }

inductive Label where
  | newFactory
  | deleteFactory (factory : Nat)
  | createServer (factory : Nat) (address : String)
  | deleteAcceptor (acceptor : Handle)
  | createClient (factory : Nat) (address : String)
  | waitConnection (acceptor : Handle)
deriving DecidableEq, Repr

/-- What `createServer` and `waitConnection` return; `waitConnection` returns the server end of the line it took. -/
inductive Event where
  | server (address : String) (result : Option Handle)
  | accepted (acceptor : Handle) (line : Option Handle)
deriving DecidableEq, Repr

abbrev Trace := List Event

def next (p : Process) : Label → Option (Process × Trace)
  | .newFactory => some ({ p with fresh := p.fresh + 1, factories := p.fresh :: p.factories }, [])
  | .deleteFactory factory =>
    if factory ∈ p.factories then
      some ({ p with registry := p.registry.clear, factories := p.factories.erase factory }, [])
    else none
  | .createServer factory address =>
    if factory ∈ p.factories then
      let (result, registry) := p.registry.createServer p.fresh address
      some ({ p with registry := registry, fresh := p.fresh + 1, acceptors := p.acceptors ++ result.toList },
        [.server address result])
    else none
  | .deleteAcceptor acceptor =>
    if acceptor ∈ p.acceptors then
      some ({ p with registry := p.registry.removeAcceptor acceptor.id, acceptors := p.acceptors.erase acceptor }, [])
    else none
  | .createClient factory address =>
    if factory ∈ p.factories then
      let line := ⟨p.fresh, address⟩
      some ({ p with registry := p.registry.queueClient line, fresh := p.fresh + 1, waiting := p.waiting ++ [line] },
        [])
    else none
  | .waitConnection acceptor =>
    if acceptor ∈ p.acceptors then
      match p.registry.takeClient acceptor.address with
      | some (line, registry) =>
        some ({ p with registry := registry, waiting := p.waiting.erase line }, [.accepted acceptor (some line)])
      | none => some (p, [.accepted acceptor none])
    else none

def machine : Machine Process Label Event := ⟨next⟩

/-- The registered acceptors are those alive, no two of them with one address, and the queued clients are those that
wait. -/
structure Exclusive (p : Process) : Prop where
  registered : p.registry.acceptors = p.acceptors
  queued : p.registry.connectQueue = p.waiting
  addresses : (p.acceptors.map Handle.address).Nodup

/-- A factory is destroyed only when no acceptor is alive and no client waits. -/
def LeavesNobody (p : Process) : Label → Prop
  | .deleteFactory _ => p.acceptors = [] ∧ p.waiting = []
  | _ => True

instance (p : Process) (l : Label) : Decidable (p.LeavesNobody l) :=
  match l with
  | .deleteFactory _ => inferInstanceAs (Decidable (p.acceptors = [] ∧ p.waiting = []))
  | .newFactory | .createServer _ _ | .deleteAcceptor _ | .createClient _ _ | .waitConnection _ => isTrue trivial

/-- Acceptors are told apart by their numbers. -/
def Numbered (p : Process) : Prop :=
  (p.acceptors.map Handle.id).Nodup ∧ ∀ acceptor ∈ p.acceptors, acceptor.id < p.fresh

private theorem eraseP_id {acceptors : List Handle} (hids : (acceptors.map Handle.id).Nodup) {acceptor : Handle}
    (hmem : acceptor ∈ acceptors) :
    (acceptors.eraseP fun a => a.id = acceptor.id) = acceptors.erase acceptor := by
  induction acceptors with
  | nil => cases hmem
  | cons a acceptors ih =>
    obtain ⟨hnot, hids⟩ := List.nodup_cons.1 hids
    rcases List.mem_cons.1 hmem with rfl | hmem
    · simp
    · have hne : a.id ≠ acceptor.id := fun h => hnot (h ▸ List.mem_map_of_mem hmem)
      have hne' : a ≠ acceptor := fun h => hne (congrArg _ h)
      rw [List.eraseP_cons_of_neg (by simpa using hne), List.erase_cons_tail (by simpa using hne'), ih hids hmem]

/-- What one step does to the acceptors and to the clients, when the registry holds them. -/
private theorem exclusive_step {p p' : Process} {l : Label} {es : Trace} (h : Exclusive p) (hnumbered : Numbered p)
    (hnext : next p l = some (p', es)) : Numbered p' ∧ (Exclusive p' ↔ LeavesNobody p l) := by
  obtain ⟨hids, hlt⟩ := hnumbered
  obtain ⟨hregistered, hqueued, haddresses⟩ := h
  have hlt' : ∀ acceptor ∈ p.acceptors, acceptor.id < p.fresh + 1 := fun acceptor hmem =>
    Nat.lt_succ_of_lt (hlt acceptor hmem)
  cases l with
  | newFactory =>
    cases hnext
    exact ⟨⟨hids, hlt'⟩, fun _ => trivial, fun _ => ⟨hregistered, hqueued, haddresses⟩⟩
  | deleteFactory factory =>
    simp only [next] at hnext
    split at hnext <;> cases hnext
    refine ⟨⟨hids, hlt⟩, fun h => ⟨h.registered.symm, h.queued.symm⟩, fun h => ?_⟩
    exact ⟨h.1.symm, h.2.symm, haddresses⟩
  | createServer factory address =>
    simp only [next] at hnext
    split at hnext <;> cases hnext
    rcases p.registry.createServer_cases p.fresh address with ⟨-, heq⟩ | ⟨hnew, heq⟩
    · rw [heq, Option.toList_none, List.append_nil]
      exact ⟨⟨hids, hlt'⟩, fun _ => trivial, fun _ => ⟨hregistered, hqueued, haddresses⟩⟩
    · rw [heq, Option.toList_some]
      rw [hregistered] at hnew
      refine ⟨⟨?_, fun acceptor hmem => ?_⟩, fun _ => trivial, fun _ => ⟨?_, hqueued, ?_⟩⟩
      · rw [List.map_append, List.nodup_append]
        refine ⟨hids, List.nodup_singleton _, fun i hi j hj => ?_⟩
        obtain ⟨acceptor, hmem, rfl⟩ := List.mem_map.1 hi
        obtain rfl : j = p.fresh := List.mem_singleton.1 hj
        exact Nat.ne_of_lt (hlt acceptor hmem)
      · rcases List.mem_append.1 hmem with hmem | hmem
        · exact hlt' acceptor hmem
        · rw [List.mem_singleton.1 hmem]
          exact Nat.lt_succ_self _
      · show p.registry.acceptors ++ _ = p.acceptors ++ _
        rw [hregistered]
      · rw [List.map_append, List.nodup_append]
        refine ⟨haddresses, List.nodup_singleton _, fun a ha b hb => ?_⟩
        obtain ⟨acceptor, hmem, rfl⟩ := List.mem_map.1 ha
        obtain rfl : b = address := List.mem_singleton.1 hb
        exact hnew acceptor hmem
  | deleteAcceptor acceptor =>
    simp only [next] at hnext
    split at hnext <;> cases hnext
    rename_i hmem
    refine ⟨⟨?_, fun a ha => hlt a (List.mem_of_mem_erase ha)⟩, fun _ => trivial, fun _ => ⟨?_, hqueued, ?_⟩⟩
    · exact hids.sublist (List.erase_sublist.map _)
    · show (p.registry.acceptors.eraseP fun a => a.id = acceptor.id) = p.acceptors.erase acceptor
      rw [hregistered]
      exact eraseP_id hids hmem
    · exact haddresses.sublist (List.erase_sublist.map _)
  | createClient factory address =>
    simp only [next] at hnext
    split at hnext <;> cases hnext
    refine ⟨⟨hids, hlt'⟩, fun _ => trivial, fun _ => ⟨hregistered, ?_, haddresses⟩⟩
    show p.registry.connectQueue ++ _ = p.waiting ++ _
    rw [hqueued]
  | waitConnection acceptor =>
    simp only [next] at hnext
    split at hnext
    · split at hnext <;> cases hnext
      · rename_i line registry htake
        obtain ⟨⟨line', others⟩, hscan, heq⟩ := Option.map_eq_some_iff.1 htake
        cases heq
        obtain ⟨haddress, before, after, hlines, rfl, hbefore⟩ := Registry.scan_eq_some hscan
        refine ⟨⟨hids, hlt⟩, fun _ => trivial, fun _ => ⟨hregistered, ?_, haddresses⟩⟩
        have hnot : line ∉ before := fun hmem => hbefore line hmem haddress
        show before ++ after = p.waiting.erase line
        rw [← hqueued, hlines, List.erase_append_right _ hnot, List.erase_cons_head]
      · exact ⟨⟨hids, hlt⟩, fun _ => trivial, fun _ => ⟨hregistered, hqueued, haddresses⟩⟩
    · cases hnext

/-- When the registry holds the acceptors, `createServer` fails exactly for the address of one that is alive. -/
private theorem server_iff {p p' : Process} {l : Label} {es : Trace} (h : Exclusive p)
    (hnext : next p l = some (p', es)) {address : String} {result : Option Handle}
    (hmem : .server address result ∈ es) : result = none ↔ ∃ acceptor ∈ p.acceptors, acceptor.address = address := by
  rw [← h.registered]
  cases l with
  | newFactory => cases hnext; cases hmem
  | deleteFactory _ | deleteAcceptor _ | createClient _ _ =>
    simp only [next] at hnext
    split at hnext <;> cases hnext
    cases hmem
  | waitConnection _ =>
    simp only [next] at hnext
    split at hnext
    · split at hnext <;> cases hnext <;> simp at hmem
    · cases hnext
  | createServer factory address' =>
    simp only [next] at hnext
    split at hnext <;> cases hnext
    cases List.mem_singleton.1 hmem
    rcases p.registry.createServer_cases p.fresh address with ⟨hfound, heq⟩ | ⟨hnew, heq⟩
    · rw [heq]
      exact ⟨fun _ => hfound, fun _ => rfl⟩
    · rw [heq]
      refine ⟨fun h => absurd h (Option.some_ne_none _), fun ⟨acceptor, hmem, haddress⟩ => ?_⟩
      exact absurd haddress (hnew acceptor hmem)

/-- In every run in which a factory is destroyed only when no acceptor is alive and no client waits, the registry
holds exactly the living acceptors, no two with one address, and the waiting clients; `createServer` fails exactly
when an acceptor with the address is alive; and a destruction at any other moment breaks this. -/
theorem exclusive_of_run (p : Process) (tr : Trace) (hrun : machine.RunWhere LeavesNobody start tr p) :
    Exclusive p ∧ ∀ l p' es, machine.next p l = some (p', es) →
      (Exclusive p' ↔ LeavesNobody p l) ∧
      ∀ address result, .server address result ∈ es →
        (result = none ↔ ∃ acceptor ∈ p.acceptors, acceptor.address = address) := by
  have hinv : Exclusive p ∧ Numbered p := by
    refine hrun.invariant (fun _ p => Exclusive p ∧ Numbered p) ?_ ?_
    · exact ⟨⟨rfl, rfl, List.nodup_nil⟩, List.nodup_nil, by simp [start]⟩
    · rintro tr p l p' es ⟨hexclusive, hnumbered⟩ hok hnext
      obtain ⟨hnumbered', hiff⟩ := exclusive_step hexclusive hnumbered hnext
      exact ⟨hiff.2 hok, hnumbered'⟩
  obtain ⟨hexclusive, hnumbered⟩ := hinv
  exact ⟨hexclusive, fun l p' es hnext =>
    ⟨(exclusive_step hexclusive hnumbered hnext).2, fun address result hmem => server_iff hexclusive hnext hmem⟩⟩

/-- Two factories with a server and a client, one of which is destroyed when all is done. -/
theorem exclusive_of_run_two : ∃ p tr, machine.RunWhere LeavesNobody start tr p ∧ p.factories = [0] ∧
    tr = [.server "a" (some ⟨2, "a"⟩), .server "a" none, .accepted ⟨2, "a"⟩ (some ⟨4, "a"⟩)] ∧ Exclusive p := by
  have h : ((machine.restrict LeavesNobody).exec start [.newFactory, .newFactory, .createServer 0 "a",
      .createServer 1 "a", .createClient 1 "a", .waitConnection ⟨2, "a"⟩, .deleteAcceptor ⟨2, "a"⟩,
      .deleteFactory 1]).any (fun r => decide (r.1.factories = [0] ∧
        r.2 = [.server "a" (some ⟨2, "a"⟩), .server "a" none, .accepted ⟨2, "a"⟩ (some ⟨4, "a"⟩)])) = true := by
    decide +kernel
  obtain ⟨⟨p, tr⟩, hexec, hdecide⟩ := (Option.any_eq_true _ _).1 h
  obtain ⟨hfactories, htr⟩ := of_decide_eq_true hdecide
  have hrun := Machine.RunWhere.of_restrict (Machine.RunWhere.of_exec hexec)
  exact ⟨p, tr, hrun, hfactories, htr, (exclusive_of_run p tr hrun).1⟩

/-- A second factory is destroyed while the first has a server and a client waits: afterwards a second acceptor gets
the address of the first, and the client is in no queue. -/
theorem not_exclusive : ∃ p tr, machine.Run start tr p ∧ ¬ (p.acceptors.map Handle.address).Nodup ∧
    ¬ ∀ line ∈ p.waiting, line ∈ p.registry.connectQueue := by
  have h : (machine.exec start [.newFactory, .newFactory, .createServer 0 "a", .createClient 0 "b", .deleteFactory 1,
      .createServer 0 "a"]).any (fun r => decide (r.1.acceptors = [⟨2, "a"⟩, ⟨4, "a"⟩] ∧ r.1.waiting = [⟨3, "b"⟩] ∧
        r.1.registry.connectQueue = [])) = true := by
    decide +kernel
  obtain ⟨⟨p, tr⟩, hexec, hdecide⟩ := (Option.any_eq_true _ _).1 h
  obtain ⟨hacceptors, hwaiting, hqueue⟩ := of_decide_eq_true hdecide
  refine ⟨p, tr, Machine.RunWhere.of_exec hexec, ?_, ?_⟩
  · rw [hacceptors]
    decide
  · rw [hwaiting, hqueue]
    decide

end Process

end Cppio
