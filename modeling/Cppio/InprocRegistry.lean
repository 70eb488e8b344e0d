import Mathlib.Data.List.Basic

/-!
# The registry of in-process addresses

`gs_acceptors` and `gs_connectQueue` of `src/common/inproc.cpp`, with what factories, acceptors and clients do to
them.  Every function here is the part of a method of the source that it runs under `gs_mutex` (the destructor of a
factory runs without it).
-/

namespace Cppio

/-- A pointer to an acceptor or to a line: the number of the object, and its address, which never changes. -/
structure Handle where
  id : Nat
  address : String
deriving DecidableEq, Repr

/-- `gs_acceptors` and `gs_connectQueue`. -/
structure Registry where
  acceptors : List Handle
  connectQueue : List Handle
deriving DecidableEq, Repr

namespace Registry

def empty : Registry := { acceptors := [], connectQueue := [] }

/-- `InprocLineFactory::~InprocLineFactory`. -/
def clear (reg : Registry) : Registry := { reg with acceptors := [], connectQueue := [] }

/-- `InprocLineFactory::createServer`; `id` is the number a new acceptor gets. -/
def createServer (reg : Registry) (id : Nat) (address : String) : Option Handle × Registry :=
  if reg.acceptors.any fun acceptor => acceptor.address = address then (none, reg)
  else (some ⟨id, address⟩, { reg with acceptors := reg.acceptors ++ [⟨id, address⟩] })

/-- `InprocAcceptor::~InprocAcceptor`. -/
def removeAcceptor (reg : Registry) (this : Nat) : Registry :=
  { reg with acceptors := reg.acceptors.eraseP fun acceptor => acceptor.id = this }

/-- `gs_connectQueue.push_back(line)` in `InprocLineFactory::createClient`. -/
def queueClient (reg : Registry) (line : Handle) : Registry :=
  { reg with connectQueue := reg.connectQueue ++ [line] }

/-- The scan of `gs_connectQueue` in `InprocAcceptor::waitConnection`: the first line with the address, and the queue
without it. -/
def scan (address : String) : List Handle → Option (Handle × List Handle)
  | [] => none
  | line :: lines =>
    if line.address = address then some (line, lines)
    else (scan address lines).map fun (found, others) => (found, line :: others)

def takeClient (reg : Registry) (address : String) : Option (Handle × Registry) :=
  (scan address reg.connectQueue).map fun (line, lines) => (line, { reg with connectQueue := lines })

/-! ### Lookups -/

theorem scan_eq_none {address : String} {lines : List Handle} (h : scan address lines = none) :
    ∀ line ∈ lines, line.address ≠ address := by
  induction lines with
  | nil => simp
  | cons l lines ih =>
    simp only [scan] at h
    split at h
    · cases h
    · rename_i hne
      intro line hline
      rcases List.mem_cons.1 hline with rfl | hline
      · exact hne
      · exact ih (Option.map_eq_none_iff.1 h) line hline

/-- The scan takes the first line with the address. -/
theorem scan_eq_some {address : String} {lines others : List Handle} {line : Handle}
    (h : scan address lines = some (line, others)) : line.address = address ∧
      ∃ before after, lines = before ++ line :: after ∧ others = before ++ after ∧
        ∀ l ∈ before, l.address ≠ address := by
  induction lines generalizing others with
  | nil => cases h
  | cons l lines ih =>
    simp only [scan] at h
    split at h
    · rename_i heq
      cases h
      exact ⟨heq, [], lines, rfl, rfl, by simp⟩
    · rename_i hne
      obtain ⟨⟨found, others'⟩, hscan, heq⟩ := Option.map_eq_some_iff.1 h
      cases heq
      obtain ⟨haddress, before, after, rfl, rfl, hbefore⟩ := ih hscan
      refine ⟨haddress, l :: before, after, rfl, rfl, fun l' hl' => ?_⟩
      rcases List.mem_cons.1 hl' with rfl | hl'
      · exact hne
      · exact hbefore l' hl'

/-- A new acceptor is registered unless its address is. -/
theorem createServer_cases (reg : Registry) (id : Nat) (address : String) :
    ((∃ acceptor ∈ reg.acceptors, acceptor.address = address) ∧ reg.createServer id address = (none, reg)) ∨
    ((∀ acceptor ∈ reg.acceptors, acceptor.address ≠ address) ∧ reg.createServer id address =
      (some ⟨id, address⟩, { reg with acceptors := reg.acceptors ++ [⟨id, address⟩] })) := by
  rw [createServer]
  split
  · rename_i h
    exact .inl ⟨by simpa using h, rfl⟩
  · rename_i h
    exact .inr ⟨by simpa using h, rfl⟩

end Registry

end Cppio
