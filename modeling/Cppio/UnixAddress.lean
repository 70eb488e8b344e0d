import Cppio.Sockets

/-!
# Addresses of Unix sockets

A Unix socket passes its address to the system in the 14 bytes of `sa_data`, and unlinks the address itself.  An
address of at most 13 bytes leaves room for a NUL, so that the two are the same and `strlen` stays in the field.  A
longer one fills the field: `strlen` goes on behind it, and the name that is passed on is another one
(`reachesSystem_iff`).
-/

namespace Cppio

/-- A system that may reply anything. -/
def anyReply (_ : Unit) (_ : Syscall) (_ : Reply) : Option Unit := some ()

/-- The program does not crash, and whatever the system replies it throws an `IoException` or has made the call. -/
def ThrowsOrCalls {α : Type} (call : Syscall → Prop) (p : Sys (Except IoException α)) : Prop :=
  p.Safe ∧ p.Ensures anyReply (fun result _ log => (∃ e, result = .error e) ∨ ∃ made ∈ log, call made.1) ()

/-- A Unix address reaches the system as it is, with the bytes `behind` behind `sa_data`. -/
structure ReachesSystem (address behind : List Byte) : Prop where
  connected : ∀ this : Socket, this.address = address →
    ThrowsOrCalls (· = .connect this.socket (.unix address)) (UnixSocket.connect behind this)
  bound : ThrowsOrCalls (fun call => ∃ fd, call = .bind fd (.unix address)) (UnixSocketAcceptor.new behind address)
  inField : ∀ i ∈ (nameLength address behind).examined ((saData address behind).getD · 0), i < 14
  distinct : ∀ other behind', 0 ∉ other → other ≠ address → ∀ path, passedName address behind = some path →
    passedName other behind' ≠ some path
  unlinked : (UnixSocketAcceptor.new behind address).Ensures anyReply (fun result _ log =>
    ∀ acceptor, result = .ok acceptor → ∀ fd path reply, (.bind fd (.unix path), reply) ∈ log →
      (UnixSocketAcceptor.destroy acceptor).Ensures anyReply (fun _ _ log' => ∃ reply', (.unlink path, reply') ∈ log')
        ()) ()

/-! ### The name that is passed on -/

/-- The name ends at the first NUL of what can be read at `sa_data`. -/
theorem passedName_eq (address behind : List Byte) : passedName address behind =
    if 0 ∈ saData address behind then some (CString.contents (saData address behind)) else none := by
  rw [passedName, nameLength, CString.run_strlen]
  split
  · exact congrArg some (CString.take_length_contents _)
  · rfl

section Short

variable {address : List Byte} (hlen : (CString.contents address).length ≤ 13) (behind : List Byte)
include hlen

/-- The NUL behind a short address lies in the field. -/
theorem zero_mem_saData : 0 ∈ saData address behind := by
  obtain ⟨t, ht⟩ := CString.strncpy_of_lt (Nat.lt_succ_of_le hlen)
  rw [saData, ht]
  simp

theorem contents_saData : CString.contents (saData address behind) = CString.contents address :=
  CString.contents_strncpy_append (Nat.lt_succ_of_le hlen) behind

theorem passedName_of_length_le : passedName address behind = some (CString.contents address) := by
  rw [passedName_eq, if_pos (zero_mem_saData hlen behind), contents_saData hlen]

end Short

/-- A long address fills the field, and what lies behind belongs to the name. -/
theorem contents_saData_of_lt {address : List Byte} (hlen : 13 < (CString.contents address).length)
    (behind : List Byte) : 13 < (CString.contents (saData address behind)).length := by
  rw [saData, CString.contents_append_of_notMem (CString.zero_notMem_strncpy hlen), List.length_append,
    CString.length_strncpy]
  exact Nat.lt_of_lt_of_le (Nat.lt_succ_self 13) (Nat.le_add_right _ _)

/-! ### Reaching the system -/

/-- The search for the end of a long address leaves the field, or does not end. -/
private theorem length_le_of_reachesSystem {address behind : List Byte} (hzero : 0 ∉ address)
    (h : ReachesSystem address behind) : address.length ≤ 13 := by
  by_contra hlong
  have hcontents := CString.contents_of_notMem hzero
  have hlen := contents_saData_of_lt (hcontents ▸ Nat.lt_of_not_le hlong) behind
  -- the search for the end of the name stops at a zero byte behind the field, or nowhere
  by_cases hmem : 0 ∈ saData address behind
  · have hexamined := h.inField 14
    rw [nameLength, CString.examined_strlen, if_pos hmem, List.mem_range] at hexamined
    exact absurd (hexamined (Nat.succ_lt_succ hlen)) (Nat.lt_irrefl 14)
  · have hsafe := (h.connected ⟨.unix, address, 0⟩ rfl).1
    rw [UnixSocket.connect, passedName_eq, if_neg hmem] at hsafe
    exact hsafe

/-- A Unix address reaches the system as it is exactly if it has at most 13 bytes. -/
theorem reachesSystem_iff (address : List Byte) (hzero : 0 ∉ address) (behind : List Byte) :
    ReachesSystem address behind ↔ address.length ≤ 13 := by
  refine ⟨length_le_of_reachesSystem hzero, fun hlen => ?_⟩
  have hcontents := CString.contents_of_notMem hzero
  rw [← hcontents] at hlen
  have hname : passedName address behind = some address := by
    rw [passedName_of_length_le hlen, hcontents]
  constructor
  case connected =>
    rintro this rfl
    rw [UnixSocket.connect, hname]
    refine ⟨by simp, ?_⟩
    simp only [Interaction.ensures_call, Interaction.ensures_ite, Interaction.ensures_done]
    intro reply _ _
    refine ⟨fun _ => Or.inl ⟨_, rfl⟩, fun _ => Or.inr ⟨_, List.mem_singleton_self _, rfl⟩⟩
  case bound =>
    rw [UnixSocketAcceptor.new, hname]
    refine ⟨by simp, ?_⟩
    simp only [Interaction.ensures_call, Interaction.ensures_ite, Interaction.ensures_done]
    intro created _ _
    refine ⟨fun _ => Or.inl ⟨_, rfl⟩, fun _ bound _ _ => ⟨fun _ => Or.inl ⟨_, rfl⟩, fun _ listened _ _ => ?_⟩⟩
    refine ⟨fun _ _ _ _ _ _ _ => Or.inl ⟨_, rfl⟩, fun _ => Or.inr ⟨(.bind created.rc (.unix address), bound), ?_, ?_⟩⟩
    · exact List.mem_cons_of_mem _ List.mem_cons_self
    · exact ⟨created.rc, rfl⟩
  case inField =>
    intro i hi
    rw [nameLength, CString.examined_strlen, if_pos (zero_mem_saData hlen behind), contents_saData hlen,
      List.mem_range] at hi
    exact Nat.lt_of_lt_of_le hi (Nat.succ_le_succ hlen)
  case distinct =>
    intro other behind' hzero' hne path hpath hpath'
    rw [hname] at hpath
    cases hpath
    have hcontents' := CString.contents_of_notMem hzero'
    -- a longer address is passed on with more than 13 bytes, and a shorter one as it is
    rcases Nat.lt_or_ge 13 other.length with hlong | hshort
    · have hlen' := contents_saData_of_lt (hcontents'.symm ▸ hlong) behind'
      rw [passedName_eq] at hpath'
      split at hpath'
      · rw [Option.some.inj hpath', ← hcontents] at hlen'
        exact absurd hlen' (Nat.not_lt_of_le hlen)
      · cases hpath'
    · rw [passedName_of_length_le (hcontents'.symm ▸ hshort), hcontents'] at hpath'
      exact hne (Option.some.inj hpath')
  case unlinked =>
    have hdestroy : ∀ fd, (UnixSocketAcceptor.destroy ⟨.unix, address, fd⟩).Ensures anyReply
        (fun _ _ log' => ∃ reply', (.unlink address, reply') ∈ log') () := by
      intro fd closed _ _ unlinked _ _
      exact ⟨unlinked, List.mem_cons_of_mem _ (List.mem_singleton.2 (by rw [hcontents]))⟩
    rw [UnixSocketAcceptor.new, hname]
    simp only [Interaction.ensures_call, Interaction.ensures_ite, Interaction.ensures_done]
    intro created _ _
    refine ⟨?_, fun _ bound _ _ => ⟨?_, fun _ listened _ _ => ⟨?_, ?_⟩⟩⟩
    · rintro - acceptor ⟨⟩
    · rintro - acceptor ⟨⟩
    · rintro - _ _ _ _ _ _ acceptor ⟨⟩
    · rintro - acceptor ⟨⟩ fd path reply hmem
      have hpath : path = address := by simp at hmem; exact hmem.1.2
      rw [hpath]
      exact hdestroy _

/-- The address of the tests has 8 bytes. -/
theorem reachesSystem_foo : 0 ∉ ascii "/tmp/foo" ∧ ReachesSystem (ascii "/tmp/foo") [] :=
  ⟨by decide, (reachesSystem_iff _ (by decide) []).2 (by decide)⟩

/-- An address of 14 bytes fills the field, and the byte behind it becomes a part of the name. -/
theorem not_reachesSystem : ¬ ∀ address behind : List Byte, 0 ∉ address → ReachesSystem address behind := by
  intro hall
  have hlong := length_le_of_reachesSystem (by decide) (hall (ascii "/tmp/socket001") [120, 0] (by decide))
  exact absurd hlong (by decide)

end Cppio
