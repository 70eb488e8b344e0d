import Cppio.Lib.Probe
import Mathlib.Data.List.GetD
import Mathlib.Data.List.TakeWhile

/-!
# NUL-terminated strings

`contents s` is the string that a function of C finds at the start of the bytes `s`: what stands before the first NUL.
`strncpy src n` are the `n` bytes that a copy into a field of `n` bytes writes there, and `strlen` is the search for
the first NUL with its loads made visible.

A field that is longer than the string holds it with a NUL behind it (`strncpy_of_lt`), and the search stays in the
field.  A field that is not has no NUL (`zero_notMem_strncpy`): the search examines the whole field and goes on with
what lies behind (`examined_strlen`).
-/

namespace CString

/-- The bytes before the first NUL. -/
def contents (s : List UInt8) : List UInt8 := s.takeWhile (· ≠ 0)

/-- What `strncpy(dst, src, n)` writes to `dst`: the string up to the length of the field, and NULs in the rest. -/
def strncpy (src : List UInt8) (n : Nat) : List UInt8 :=
  (contents src).take n ++ List.replicate (n - (contents src).length) 0

/-- The loop of `strlen` at position `i`, where `n` more bytes can be read: the position of the first NUL, or `none`
if there is none among them. -/
def strlen : Nat → Nat → Probe UInt8 (Option Nat)
  | 0, _ => .done none
  | n + 1, i => .load i 1 fun bytes => if bytes = [0] then .done (some i) else strlen n (i + 1)

variable {s : List UInt8} {n : Nat}

/-! ### Contents -/

theorem contents_append_of_notMem (h : 0 ∉ s) (t : List UInt8) : contents (s ++ t) = s ++ contents t := by
  refine List.takeWhile_append_of_pos fun b hb => ?_
  rw [decide_eq_true_eq]
  rintro rfl
  exact h hb

theorem contents_of_notMem (h : 0 ∉ s) : contents s = s := by
  have hs := contents_append_of_notMem h []
  rwa [List.append_nil, show contents [] = [] from rfl, List.append_nil] at hs

theorem zero_notMem_contents (s : List UInt8) : 0 ∉ contents s := by
  intro h
  have hne := List.mem_takeWhile_imp h
  simp at hne

theorem contents_append_of_mem (h : 0 ∈ s) (t : List UInt8) : contents (s ++ t) = contents s := by
  rw [contents, List.takeWhile_append, if_neg]
  · rfl
  · intro hlen
    have hall : contents s = s := (List.takeWhile_prefix _).eq_of_length hlen
    exact zero_notMem_contents s (hall.symm ▸ h)

theorem length_contents_le (s : List UInt8) : (contents s).length ≤ s.length :=
  (List.takeWhile_sublist _).length_le

theorem take_length_contents (s : List UInt8) : s.take (contents s).length = contents s :=
  (List.prefix_iff_eq_take.1 (List.takeWhile_prefix _)).symm

theorem contents_append_zero (h : 0 ∉ s) (t : List UInt8) : contents (s ++ 0 :: t) = s := by
  rw [contents_append_of_notMem h, contents, List.takeWhile_cons_of_neg (by decide), List.append_nil]

/-! ### Fields -/

theorem length_strncpy (src : List UInt8) (n : Nat) : (strncpy src n).length = n := by
  rw [strncpy, List.length_append, List.length_take, List.length_replicate]
  omega

/-- A field that is longer than the string. -/
theorem strncpy_of_lt (h : (contents s).length < n) : ∃ t, strncpy s n = contents s ++ 0 :: t := by
  refine ⟨List.replicate (n - (contents s).length - 1) 0, ?_⟩
  rw [strncpy, List.take_of_length_le (Nat.le_of_lt h), ← List.replicate_succ]
  congr 2
  omega

/-- A field that the string fills. -/
theorem strncpy_of_le (h : n ≤ (contents s).length) : strncpy s n = (contents s).take n := by
  rw [strncpy, Nat.sub_eq_zero_of_le h, List.replicate_zero, List.append_nil]

theorem zero_notMem_strncpy (h : n ≤ (contents s).length) : 0 ∉ strncpy s n := by
  rw [strncpy_of_le h]
  exact fun hmem => zero_notMem_contents s (List.mem_of_mem_take hmem)

theorem contents_strncpy_append (h : (contents s).length < n) (t : List UInt8) :
    contents (strncpy s n ++ t) = contents s := by
  obtain ⟨t', ht'⟩ := strncpy_of_lt h
  rw [ht', List.append_assoc, List.cons_append, contents_append_zero (zero_notMem_contents s)]

/-! ### Searching for the end -/

private theorem cells_getD {i : Nat} (h : i < s.length) : Probe.cells (s.getD · 0) i 1 = [s[i]] := by
  rw [Probe.cells, List.range_one, List.map_singleton, Nat.add_zero, List.getD_eq_getElem _ _ h]

private theorem strlen_from (n : Nat) : ∀ i, i + n = s.length →
    (strlen n i).run (s.getD · 0) = (if 0 ∈ s.drop i then some (i + (contents (s.drop i)).length) else none) ∧
      (strlen n i).examined (s.getD · 0) =
        (List.range (if 0 ∈ s.drop i then (contents (s.drop i)).length + 1 else n)).map (i + ·) := by
  induction n with
  | zero =>
    intro i hi
    rw [List.drop_of_length_le (by omega)]
    exact ⟨rfl, rfl⟩
  | succ n ih =>
    intro i hi
    have hlt : i < s.length := by omega
    rw [List.drop_eq_getElem_cons hlt]
    simp only [strlen, Probe.run, Probe.examined, cells_getD hlt, List.range_one, List.map_singleton, Nat.add_zero]
    by_cases hzero : s[i] = 0
    · rw [hzero]
      exact ⟨rfl, rfl⟩
    · obtain ⟨hrun, hexamined⟩ := ih (i + 1) (by omega)
      have hne : ¬ [s[i]] = [0] := fun h => hzero (List.singleton_inj.1 h)
      have hmem : 0 ∈ s[i] :: s.drop (i + 1) ↔ 0 ∈ s.drop (i + 1) := by
        rw [List.mem_cons, or_iff_right (Ne.symm hzero)]
      have hcontents : contents (s[i] :: s.drop (i + 1)) = s[i] :: contents (s.drop (i + 1)) :=
        List.takeWhile_cons_of_pos (by simpa using hzero)
      have hshift : ∀ m, (List.range (m + 1)).map (i + ·) = i :: (List.range m).map (i + 1 + ·) := by
        intro m
        rw [List.range_succ_eq_map, List.map_cons, List.map_map]
        congr 1
        refine List.map_congr_left fun j _ => ?_
        show i + (j + 1) = i + 1 + j
        omega
      rw [if_neg hne, hrun, hexamined, if_congr hmem rfl rfl, hcontents]
      refine ⟨?_, ?_⟩
      · rw [List.length_cons, Nat.add_assoc, Nat.add_comm 1]
      · rw [List.singleton_append, ← hshift, if_congr hmem rfl rfl, List.length_cons]
        split <;> rfl

/-- The search finds the end of the contents; without a NUL it leaves the bytes that can be read. -/
theorem run_strlen (s : List UInt8) :
    (strlen s.length 0).run (s.getD · 0) = if 0 ∈ s then some (contents s).length else none := by
  have h := (strlen_from s.length 0 (Nat.zero_add _)).1
  rwa [List.drop_zero, Nat.zero_add] at h

/-- The search examines the contents and the first NUL; without a NUL all bytes that can be read. -/
theorem examined_strlen (s : List UInt8) : (strlen s.length 0).examined (s.getD · 0) =
    List.range (if 0 ∈ s then (contents s).length + 1 else s.length) := by
  have h := (strlen_from s.length 0 (Nat.zero_add _)).2
  simpa only [List.drop_zero, Nat.zero_add, List.map_id'] using h

end CString
