import Cppio.Lib.Decimal
import Cppio.UnixAddress

/-!
# TCP endpoints

A TCP socket takes the host from before the first `:` of its address and the port from behind it.  Neither the
position of the `:` nor the port is checked, so every address is used: without a `:` the whole address is both the
host and the port, and of the number that `atoi` finds `htons` keeps 16 bits.  Exactly the addresses that are a host
and a decimal port are used as they are (`exactOrRefused_iff`).
-/

namespace Cppio

open Decimal

/-- The address is a host, a `:` and a decimal port. -/
def Endpoint (address host : List Byte) (port : Nat) : Prop :=
  ∃ digits, address = host ++ 58 :: digits ∧ 58 ∉ host ∧ digits ≠ [] ∧ (∀ b ∈ digits, IsDigit b) ∧
    value digits = port ∧ port < 2 ^ 16

/-- The host and the port that a name stands for: `inet_addr` and `atoi` are given NUL-terminated strings, and `htons`
keeps the low 16 bits. -/
def SocketName.Uses (atoi : List Byte → Int) (host : Option (List Byte)) (port : Nat) : SocketName → Prop
  | .inet hostText portText => hostText.map CString.contents = host ∧ atoi (CString.contents portText) % 2 ^ 16 = port
  | .unix _ => False

/-- The name a system call passes on, to make a connection or to bind a port, satisfies `P`. -/
def Syscall.PassesOn (P : SocketName → Prop) : Syscall → Prop
  | .connect _ name | .bind _ name => P name
  | _ => True

/-- An `IoException` is thrown before any connection is made or port bound. -/
def Refuses {α : Type} (p : Sys (Except IoException α)) : Prop :=
  p.Only (·.PassesOn fun _ => False) ∧ p.Ensures anyReply (fun result _ _ => ∃ e, result = .error e) ()

/-- The client and the acceptor use the same host and port, where the host `*` of an acceptor is any address. -/
structure UsedAlike (atoi : List Byte → Int) (address host : List Byte) (port : Nat) : Prop where
  connected : ∀ this : Socket, this.address = address →
    (TcpSocket.connect this).Only (·.PassesOn (·.Uses atoi (some host) port))
  bound : (TcpSocketAcceptor.new address).Only
    (·.PassesOn (·.Uses atoi (if host ≠ ascii "*" then some host else none) port))

/-- The host and the port of an endpoint are used, and what is not an endpoint is refused, on both sides. -/
def ExactOrRefused (atoi : List Byte → Int) (address : List Byte) : Prop :=
  (∃ host port, Endpoint address host port ∧ UsedAlike atoi address host port) ∨
    (∀ host port, ¬ Endpoint address host port) ∧
      (∀ this : Socket, this.address = address → Refuses (TcpSocket.connect this)) ∧
      Refuses (TcpSocketAcceptor.new address)

/-! ### What is passed on -/

section PassesOn

variable {P : SocketName → Prop}

theorem only_connect {this : Socket} : (TcpSocket.connect this).Only (·.PassesOn P) ↔
    P (.inet (some (hostOf this.address)) (portOf this.address)) := by
  simp [TcpSocket.connect, Syscall.PassesOn]

theorem only_new {address : List Byte} : (TcpSocketAcceptor.new address).Only (·.PassesOn P) ↔
    P (.inet (if hostOf address ≠ ascii "*" then some (hostOf address) else none) (portOf address)) := by
  simp only [TcpSocketAcceptor.new, Syscall.PassesOn, Interaction.only_call, Interaction.only_ite,
    Interaction.only_done, implies_true, and_true, true_and]
  -- the port is bound where the replies so far were not errors
  exact ⟨fun h => (h ⟨0, 0⟩ (by decide) ⟨0, 0⟩ (by decide)), fun h _ _ _ _ => h⟩

end PassesOn

/-- Every address is used. -/
theorem not_refuses_connect (this : Socket) : ¬ Refuses (TcpSocket.connect this) :=
  fun h => only_connect.1 h.1

/-! ### Endpoints -/

section Endpoint

variable {host digits : List Byte} (hhost : 58 ∉ host)
include hhost

theorem hostOf_endpoint : hostOf (host ++ 58 :: digits) = host := by
  rw [hostOf, List.takeWhile_append_of_pos, List.takeWhile_cons_of_neg (by decide), List.append_nil]
  intro b hb
  rw [decide_eq_true_eq]
  rintro rfl
  exact hhost hb

theorem portOf_endpoint : portOf (host ++ 58 :: digits) = digits := by
  rw [portOf, if_pos (by simp), List.dropWhile_append_of_pos, List.dropWhile_cons_of_neg (by decide), List.tail_cons]
  intro b hb
  rw [decide_eq_true_eq]
  rintro rfl
  exact hhost hb

end Endpoint

private theorem zero_notMem_of_digits {digits : List Byte} (h : ∀ b ∈ digits, IsDigit b) : 0 ∉ digits :=
  fun hmem => absurd (h 0 hmem) (by decide)

private theorem usedAlike_of_endpoint {atoi : List Byte → Int} {address host : List Byte} {port : Nat}
    (hatoi : ∀ digits, digits ≠ [] → (∀ b ∈ digits, IsDigit b) → value digits < 2 ^ 16 → atoi digits = value digits)
    (h : Endpoint address host port) (hzero : 0 ∉ host) : UsedAlike atoi address host port := by
  obtain ⟨digits, rfl, hhost, hne, hdigits, hvalue, hlt⟩ := h
  have hport : atoi (CString.contents digits) % 2 ^ 16 = port := by
    rw [CString.contents_of_notMem (zero_notMem_of_digits hdigits), hatoi digits hne hdigits (hvalue ▸ hlt), hvalue]
    omega
  constructor
  case connected =>
    rintro this haddress
    rw [only_connect, haddress, hostOf_endpoint hhost, portOf_endpoint hhost]
    exact ⟨congrArg some (CString.contents_of_notMem hzero), hport⟩
  case bound =>
    rw [only_new, hostOf_endpoint hhost, portOf_endpoint hhost]
    refine ⟨?_, hport⟩
    split
    · exact congrArg some (CString.contents_of_notMem hzero)
    · rfl

/-- An address is used exactly or refused if and only if it is a host without a NUL, a `:` and a decimal port. -/
theorem exactOrRefused_iff {atoi : List Byte → Int}
    (hatoi : ∀ digits, digits ≠ [] → (∀ b ∈ digits, IsDigit b) → value digits < 2 ^ 16 → atoi digits = value digits)
    (address : List Byte) : ExactOrRefused atoi address ↔ ∃ host port, Endpoint address host port ∧ 0 ∉ host := by
  constructor
  · rintro (⟨host, port, hend, hused⟩ | ⟨-, hrefuses, -⟩)
    · refine ⟨host, port, hend, fun hmem => ?_⟩
      obtain ⟨digits, rfl, hhost, -⟩ := hend
      have huses := hused.connected ⟨.inet, host ++ 58 :: digits, 0⟩ rfl
      rw [only_connect, hostOf_endpoint hhost] at huses
      have hcontents : CString.contents host = host := Option.some.inj huses.1
      exact CString.zero_notMem_contents host (hcontents.symm ▸ hmem)
    · exact absurd (hrefuses ⟨.inet, address, 0⟩ rfl) (not_refuses_connect _)
  · rintro ⟨host, port, hend, hzero⟩
    exact Or.inl ⟨host, port, hend, usedAlike_of_endpoint hatoi hend hzero⟩

/-- The endpoint of the tests. -/
theorem exactOrRefused_tests : ExactOrRefused (fun s => leadingValue s) (ascii "127.0.0.1:6000") :=
  (exactOrRefused_iff (fun digits _ hdigits _ => congrArg Int.ofNat (leadingValue_of_digits hdigits)) _).2
    ⟨ascii "127.0.0.1", 6000,
      ⟨ascii "6000", by decide, by decide, by decide, by decide +kernel, by decide, by decide⟩, by decide⟩

/-- Without a `:` the first number of the address is used as the port. -/
theorem not_exactOrRefused :
    (SocketName.inet (some (hostOf (ascii "127.0.0.1"))) (portOf (ascii "127.0.0.1"))).Uses
      (fun s => leadingValue s) (some (ascii "127.0.0.1")) 127 ∧
    ¬ ExactOrRefused (fun s => leadingValue s) (ascii "127.0.0.1") := by
  refine ⟨⟨by decide, by decide⟩, ?_⟩
  rintro (⟨host, port, ⟨digits, heq, -⟩, -⟩ | ⟨-, hrefuses, -⟩)
  · have hmem : 58 ∈ ascii "127.0.0.1" := by
      rw [heq]
      simp
    exact absurd hmem (by decide)
  · exact not_refuses_connect _ (hrefuses ⟨.inet, ascii "127.0.0.1", 0⟩ rfl)

end Cppio
