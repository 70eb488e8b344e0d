import Cppio.Types
import Cppio.Lib.CString
import Cppio.Lib.Interaction
import Mathlib.Data.List.Infix

/-!
# Endpoint strings

`IoLineManager::createClient` and `IoLineManager::createServer` split an endpoint string into a scheme and a base
address and call the first registered factory that supports the scheme.  Calling a factory is a call of the
interaction, and what the factory returns or throws is the reply.

`Dispatches` says what the split is for: the scheme ends where `://` first occurs.  The code looks for the first `:`
or `/` instead, and skips three characters from there on.  It dispatches an endpoint exactly if the two agree, or if
no factory is concerned (`dispatches_iff`).
-/

namespace Cppio

/-- What a function throws: `IoException`, the `std::out_of_range` of `substr`, or whatever else a factory throws. -/
inductive Exception where
  | io (e : IoException)
  | outOfRange
  | other (what : String)
deriving DecidableEq, Repr

/-- What a function returns or throws; a `none` that is returned is a `nullptr`. -/
abbrev Result (L : Type) := Except Exception (Option L)

/-- `catch(const IoException& e) { return nullptr; }` -/
def Result.catchIo {L : Type} : Result L → Result L
  | .error (.io _) => .ok none
  | result => result

/-- `supportsScheme` of a registered factory. -/
structure Factory where
  supportsScheme : List Byte → Bool

/-- The two methods of a factory that make an object. -/
inductive Method where
  | createClient
  | createServer
deriving DecidableEq, Repr

/-- A call of a method of the registered factory with the given index. -/
structure FactoryCall where
  method : Method
  factory : Nat
  baseAddress : List Byte
deriving DecidableEq, Repr

namespace IoLineManager

variable {L : Type}

/-- `std::string::find_first_of`: the position of the first character that is one of `chars`. -/
def findFirstOf (chars s : List Byte) : Option Nat := s.findIdx? fun c => chars.contains c

/-- `std::string::substr(pos)`, which throws `std::out_of_range` for a position behind the end. -/
def substr (s : List Byte) (pos : Nat) : Except Exception (List Byte) :=
  if pos ≤ s.length then .ok (s.drop pos) else .error .outOfRange

/-- The `try` block for the factory with index `i`. -/
def tryFactory (method : Method) (address : List Byte) (delimiter i : Nat) :
    Interaction FactoryCall (Result L) (Result L) :=
  match substr address (delimiter + 3) with
  | .ok baseAddress => .call ⟨method, i, baseAddress⟩ fun result => .done result.catchIo
  | .error e => .done (Result.catchIo (.error e))

/-- The loop over the factories; `i` is the index of the first of them. -/
def loop (method : Method) (address : List Byte) (delimiter : Nat) :
    Nat → List Factory → Interaction FactoryCall (Result L) (Result L)
  | _, [] => .done (.ok none)
  | i, factory :: factories =>
    if factory.supportsScheme (address.take delimiter) then tryFactory method address delimiter i
    else loop method address delimiter (i + 1) factories

/-- `createClient` and `createServer`, which differ in the method of the factory they call. -/
def create (method : Method) (factories : List Factory) (address : List Byte) :
    Interaction FactoryCall (Result L) (Result L) :=
  match findFirstOf (ascii "://") address with
  | none => .done (.ok none)
  | some delimiter => loop method address delimiter 0 factories

/-- `IoLineManager::createClient`. -/
def createClient (factories : List Factory) (address : List Byte) : Interaction FactoryCall (Result L) (Result L) :=
  create .createClient factories address

/-- `IoLineManager::createServer`. -/
def createServer (factories : List Factory) (address : List Byte) : Interaction FactoryCall (Result L) (Result L) :=
  create .createServer factories address

/-- `cppio_create_client`, which is given a C string. -/
def cppioCreateClient (factories : List Factory) (address : List Byte) :
    Interaction FactoryCall (Result L) (Result L) :=
  (createClient factories (CString.contents address)).map Result.catchIo

/-- `cppio_create_server`. -/
def cppioCreateServer (factories : List Factory) (address : List Byte) :
    Interaction FactoryCall (Result L) (Result L) :=
  (createServer factories (CString.contents address)).map Result.catchIo

/-! ### What the split is for -/

/-- The first `://` of the address ends the scheme. -/
def SplitsAt (address scheme rest : List Byte) : Prop :=
  address = scheme ++ ascii "://" ++ rest ∧
    ∀ scheme' rest', address = scheme' ++ ascii "://" ++ rest' → scheme.length ≤ scheme'.length

/-- The first factory that supports the scheme is the one with index `i`. -/
def FirstSupports (factories : List Factory) (scheme : List Byte) (i : Nat) : Prop :=
  factories.findIdx? (·.supportsScheme scheme) = some i

/-- Only a factory throws, whatever it is asked for and returns. -/
def OnlyFactoriesThrow (p : Interaction FactoryCall (Result L) (Result L)) : Prop :=
  p.Ensures (fun _ _ _ => some ()) (fun result _ log => ∀ e, result = .error e → ∃ c, (c, .error e) ∈ log) ()

/-- The program dispatches the address: it calls the first factory that supports the scheme with the rest of the
address and returns its result, or `nullptr` if the factory throws an `IoException`; without a `://` or a factory it
returns `nullptr` and calls none. -/
structure DispatchesBy (method : Method) (factories : List Factory) (address : List Byte)
    (p : Interaction FactoryCall (Result L) (Result L)) : Prop where
  found : ∀ scheme rest i, SplitsAt address scheme rest → FirstSupports factories scheme i →
    p = .call ⟨method, i, rest⟩ fun result => .done result.catchIo
  notFound : (¬ ∃ scheme rest i, SplitsAt address scheme rest ∧ FirstSupports factories scheme i) →
    p = .done (.ok none)
  throws : OnlyFactoriesThrow p

/-- Both functions dispatch the address, and the functions for C let no other exception through. -/
structure Dispatches (L : Type) (factories : List Factory) (address : List Byte) : Prop where
  client : DispatchesBy .createClient factories address (createClient (L := L) factories address)
  server : DispatchesBy .createServer factories address (createServer (L := L) factories address)
  wrappers : ∀ cAddress, CString.contents cAddress = address →
    OnlyFactoriesThrow (cppioCreateClient (L := L) factories cAddress) ∧
      OnlyFactoriesThrow (cppioCreateServer (L := L) factories cAddress)

/-- The first `:` or `/` begins the first `://`, or no factory supports what stands before either. -/
def WellPlaced (factories : List Factory) (address : List Byte) : Prop :=
  ∀ delimiter, findFirstOf (ascii "://") address = some delimiter →
    ascii "://" <+: address.drop delimiter ∨
      ((∀ factory ∈ factories, factory.supportsScheme (address.take delimiter) = false) ∧
        ∀ scheme rest, SplitsAt address scheme rest → ∀ factory ∈ factories, factory.supportsScheme scheme = false)

/-! ### The first delimiter -/

/-- The first `:` or `/` stands in front of every `://`. -/
private theorem exists_findFirstOf {address scheme rest : List Byte} (h : address = scheme ++ ascii "://" ++ rest) :
    ∃ d, findFirstOf (ascii "://") address = some d ∧ d ≤ scheme.length := by
  have hcolon : findFirstOf (ascii "://") (ascii "://" ++ rest) = some 0 := rfl
  rw [h, List.append_assoc, findFirstOf, List.findIdx?_append]
  cases hscheme : scheme.findIdx? fun c => (ascii "://").contains c with
  | none =>
    rw [findFirstOf] at hcolon
    rw [hcolon]
    exact ⟨scheme.length, congrArg some (Nat.zero_add _), Nat.le_refl _⟩
  | some d =>
    obtain ⟨hd, -⟩ := List.findIdx?_eq_some_iff_getElem.1 hscheme
    exact ⟨d, rfl, Nat.le_of_lt hd⟩

theorem SplitsAt.unique {address scheme rest scheme' rest' : List Byte} (h : SplitsAt address scheme rest)
    (h' : SplitsAt address scheme' rest') : scheme = scheme' ∧ rest = rest' := by
  have hlen := Nat.le_antisymm (h.2 _ _ h'.1) (h'.2 _ _ h.1)
  have heq := h.1.symm.trans h'.1
  rw [List.append_assoc, List.append_assoc] at heq
  obtain ⟨hscheme, hrest⟩ := List.append_inj heq hlen
  exact ⟨hscheme, List.append_cancel_left hrest⟩

/-- The address splits at the first `:` or `/` if that begins a `://`. -/
private theorem splitsAt_of_isPrefix {address : List Byte} {d : Nat}
    (hd : findFirstOf (ascii "://") address = some d) (h : ascii "://" <+: address.drop d) :
    SplitsAt address (address.take d) (address.drop (d + 3)) := by
  obtain ⟨rest, hrest⟩ := h
  have hdrop : address.drop (d + 3) = rest := by
    rw [← List.drop_drop, ← hrest]
    rfl
  refine ⟨?_, fun scheme' rest' h => ?_⟩
  · rw [hdrop, List.append_assoc, hrest, List.take_append_drop]
  · obtain ⟨d', hd', hle⟩ := exists_findFirstOf h
    rw [hd] at hd'
    cases hd'
    exact (List.length_take_le _ _).trans hle

/-- Otherwise it splits behind it. -/
private theorem SplitsAt.lt {address scheme rest : List Byte} (h : SplitsAt address scheme rest) {d : Nat}
    (hd : findFirstOf (ascii "://") address = some d) (hnot : ¬ ascii "://" <+: address.drop d) :
    d < scheme.length := by
  obtain ⟨d', hd', hle⟩ := exists_findFirstOf h.1
  rw [hd] at hd'
  cases hd'
  refine Nat.lt_of_le_of_ne hle fun heq => hnot ⟨rest, ?_⟩
  rw [h.1, heq, List.append_assoc, List.drop_left]

/-! ### The loop over the factories -/

private theorem loop_eq (method : Method) (address : List Byte) (d : Nat) (factories : List Factory) : ∀ i,
    loop (L := L) method address d i factories =
      match factories.findIdx? (·.supportsScheme (address.take d)) with
      | none => .done (.ok none)
      | some j => tryFactory method address d (i + j) := by
  induction factories with
  | nil => exact fun _ => rfl
  | cons factory factories ih =>
    intro i
    rw [List.findIdx?_cons, loop]
    cases factory.supportsScheme (address.take d) with
    | true => rfl
    | false =>
      rw [if_neg Bool.false_ne_true, if_neg Bool.false_ne_true, ih]
      cases factories.findIdx? (·.supportsScheme (address.take d)) with
      | none => rfl
      | some j =>
        show tryFactory method address d (i + 1 + j) = tryFactory method address d (i + (j + 1))
        rw [Nat.add_assoc, Nat.add_comm 1]

/-- A call returns or throws without a factory, or calls one and returns its result. -/
theorem create_cases (method : Method) (factories : List Factory) (address : List Byte) :
    create (L := L) method factories address = .done (.ok none) ∨
    create (L := L) method factories address = .done (.error .outOfRange) ∨
    ∃ i baseAddress, create (L := L) method factories address =
      .call ⟨method, i, baseAddress⟩ fun result => .done result.catchIo := by
  unfold create
  split
  · exact Or.inl rfl
  · rw [loop_eq]
    split
    · exact Or.inl rfl
    · unfold tryFactory substr
      split_ifs
      · exact Or.inr (Or.inr ⟨_, _, rfl⟩)
      · exact Or.inr (Or.inl rfl)

/-- What a call does that finds a delimiter and a factory for what stands before it. -/
private theorem create_of_supports {method : Method} {factories : List Factory} {address : List Byte} {d i : Nat}
    (hd : findFirstOf (ascii "://") address = some d) (hi : FirstSupports factories (address.take d) i) :
    create (L := L) method factories address = tryFactory method address d i := by
  rw [FirstSupports] at hi
  simp only [create, hd, loop_eq, hi, Nat.zero_add]

private theorem create_of_not_supports {method : Method} {factories : List Factory} {address : List Byte} {d : Nat}
    (hd : findFirstOf (ascii "://") address = some d)
    (hnone : ∀ factory ∈ factories, factory.supportsScheme (address.take d) = false) :
    create (L := L) method factories address = .done (.ok none) := by
  simp only [create, hd, loop_eq, List.findIdx?_eq_none_iff.2 hnone]

private theorem exists_firstSupports {factories : List Factory} {scheme : List Byte}
    (h : ¬ ∀ factory ∈ factories, factory.supportsScheme scheme = false) : ∃ i, FirstSupports factories scheme i := by
  rw [← List.findIdx?_eq_none_iff] at h
  exact Option.ne_none_iff_exists'.1 h

private theorem not_firstSupports {factories : List Factory} {scheme : List Byte}
    (h : ∀ factory ∈ factories, factory.supportsScheme scheme = false) (i : Nat) :
    ¬ FirstSupports factories scheme i := by
  rw [FirstSupports, List.findIdx?_eq_none_iff.2 h]
  exact Option.some_ne_none i ∘ Eq.symm

/-! ### Dispatching -/

private theorem onlyFactoriesThrow_call (c : FactoryCall) :
    OnlyFactoriesThrow (L := L) (.call c fun result => .done result.catchIo) := by
  intro result s _ e he
  cases result with
  | ok object => cases he
  | error e' =>
    cases e' with
    | io e' => cases he
    | outOfRange | other _ =>
      cases he
      exact ⟨c, List.mem_singleton_self _⟩

private theorem onlyFactoriesThrow_none : OnlyFactoriesThrow (L := L) (.done (.ok none)) := by
  intro e he
  cases he

private theorem OnlyFactoriesThrow.catchIo {p : Interaction FactoryCall (Result L) (Result L)}
    (h : OnlyFactoriesThrow p) : OnlyFactoriesThrow (p.map Result.catchIo) := by
  refine Interaction.Ensures.bind (h.mono fun result _ log hthrows e he => ?_)
  rw [List.append_nil]
  refine hthrows e ?_
  cases result with
  | ok object => cases he
  | error e' =>
    cases e' with
    | io e' => cases he
    | outOfRange | other _ => exact he

/-- Where the split is right, or concerns no factory, the address is dispatched. -/
private theorem dispatchesBy_of_wellPlaced (method : Method) {factories : List Factory} {address : List Byte}
    (h : WellPlaced factories address) :
    DispatchesBy method factories address (create (L := L) method factories address) := by
  cases hd : findFirstOf (ascii "://") address with
  | none =>
    have hcreate : create (L := L) method factories address = .done (.ok none) := by simp only [create, hd]
    rw [hcreate]
    refine ⟨fun scheme rest i hsplit _ => ?_, fun _ => rfl, onlyFactoriesThrow_none⟩
    obtain ⟨d, hd', -⟩ := exists_findFirstOf hsplit.1
    rw [hd] at hd'
    cases hd'
  | some d =>
    rcases h d hd with hprefix | ⟨hnone, hsplits⟩
    · have hsplit := splitsAt_of_isPrefix hd hprefix
      have hle : d + 3 ≤ address.length := by
        have hlen : 3 ≤ (address.drop d).length := hprefix.length_le
        rw [List.length_drop] at hlen
        omega
      by_cases hsupports : ∀ factory ∈ factories, factory.supportsScheme (address.take d) = false
      · rw [create_of_not_supports hd hsupports]
        refine ⟨fun scheme rest i hsplit' hi => ?_, fun _ => rfl, onlyFactoriesThrow_none⟩
        obtain ⟨rfl, -⟩ := hsplit.unique hsplit'
        exact absurd hi (not_firstSupports hsupports i)
      · obtain ⟨j, hj⟩ := exists_firstSupports hsupports
        have htry : tryFactory (L := L) method address d j =
            .call ⟨method, j, address.drop (d + 3)⟩ fun result => .done result.catchIo := by
          rw [tryFactory, substr, if_pos hle]
        rw [create_of_supports hd hj, htry]
        refine ⟨fun scheme rest i hsplit' hi => ?_, fun hnot => ?_, onlyFactoriesThrow_call _⟩
        · obtain ⟨rfl, rfl⟩ := hsplit.unique hsplit'
          rw [FirstSupports, hj] at hi
          cases hi
          rfl
        · exact absurd ⟨_, _, _, hsplit, hj⟩ hnot
    · -- there is no factory, neither for what is looked for nor for the scheme
      rw [create_of_not_supports hd hnone]
      refine ⟨fun scheme rest i hsplit hi => ?_, fun _ => rfl, onlyFactoriesThrow_none⟩
      exact absurd hi (not_firstSupports (hsplits scheme rest hsplit) i)

/-- Where it is wrong and concerns a factory, it is not. -/
private theorem wellPlaced_of_dispatchesBy {method : Method} {factories : List Factory} {address : List Byte}
    (h : DispatchesBy method factories address (create (L := L) method factories address)) :
    WellPlaced factories address := by
  intro d hd
  by_cases hprefix : ascii "://" <+: address.drop d
  · exact Or.inl hprefix
  · have hnone : ∀ factory ∈ factories, factory.supportsScheme (address.take d) = false := by
      by_contra hsupports
      obtain ⟨i, hi⟩ := exists_firstSupports hsupports
      by_cases hfound : ∃ scheme rest j, SplitsAt address scheme rest ∧ FirstSupports factories scheme j
      · -- the call passes on what stands behind the first delimiter, which is more than the rest
        obtain ⟨scheme, rest, j, hsplit, hj⟩ := hfound
        have hcall := h.found scheme rest j hsplit hj
        have hlt := hsplit.lt hd hprefix
        have hlen : address.length = scheme.length + 3 + rest.length := by
          rw [hsplit.1, List.length_append, List.length_append]
          rfl
        rw [create_of_supports hd hi, tryFactory, substr, if_pos (by omega)] at hcall
        have hrest : address.drop (d + 3) = rest := congrArg FactoryCall.baseAddress (Interaction.call.inj hcall).1
        rw [← hrest, List.length_drop] at hlen
        omega
      · -- the call should return at once, but it calls a factory or throws
        have hdone := h.notFound hfound
        rw [create_of_supports hd hi, tryFactory] at hdone
        split at hdone
        · cases hdone
        · rename_i e hsubstr
          unfold substr at hsubstr
          split at hsubstr <;> cases hsubstr
          cases hdone
    refine Or.inr ⟨hnone, fun scheme rest hsplit => ?_⟩
    by_contra hsupports
    obtain ⟨i, hi⟩ := exists_firstSupports hsupports
    have hcall := h.found scheme rest i hsplit hi
    rw [create_of_not_supports hd hnone] at hcall
    cases hcall

/-- An address is dispatched exactly if its first `:` or `/` begins a `://`, or no factory supports what stands before
that `:` or `/`, nor what stands before the first `://`. -/
theorem dispatches_iff (L : Type) (factories : List Factory) (address : List Byte) :
    Dispatches L factories address ↔ WellPlaced factories address := by
  refine ⟨fun h => wellPlaced_of_dispatchesBy h.client, fun h => ?_⟩
  have hclient := dispatchesBy_of_wellPlaced (L := L) .createClient h
  have hserver := dispatchesBy_of_wellPlaced (L := L) .createServer h
  refine ⟨hclient, hserver, ?_⟩
  rintro cAddress rfl
  exact ⟨hclient.throws.catchIo, hserver.throws.catchIo⟩

/-- A scheme with its `:` alone: `substr` throws, and the exception leaves the function for C. -/
theorem not_dispatches : ¬ ∀ (factories : List Factory) (address : List Byte), Dispatches Unit factories address := by
  intro hall
  have hwrappers := (hall [⟨fun scheme => scheme = ascii "inproc"⟩] (ascii "inproc:")).wrappers (ascii "inproc:") rfl
  have hthrows := hwrappers.1
  have hplay : (cppioCreateClient (L := Unit) [⟨fun scheme => scheme = ascii "inproc"⟩] (ascii "inproc:")).play
      (fun _ _ _ => some ()) () [] = some (.error .outOfRange, (), []) := rfl
  obtain ⟨c, hc⟩ := hthrows.of_play hplay .outOfRange rfl
  cases hc

end IoLineManager

end Cppio
