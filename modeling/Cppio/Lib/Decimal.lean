import Mathlib.Algebra.Order.Group.Nat
import Mathlib.Data.List.TakeWhile

/-!
# Decimal texts

The value of a text of ASCII digits, and the texts of numbers and of integers.  A text determines its number
(`text_injective`, `intText_injective`), and the beginning of the text of a number is the text of a number
(`eq_text_of_append`), so a number can be cut out of the text of another one.
-/

namespace Decimal

def IsDigit (b : UInt8) : Prop := 48 ≤ b ∧ b ≤ 57

instance : DecidablePred IsDigit := fun b => inferInstanceAs (Decidable (48 ≤ b ∧ b ≤ 57))

/-- The value of a text of digits. -/
def value (digits : List UInt8) : Nat := Nat.ofDigitChars 10 (digits.map Char.ofUInt8) 0

/-- The value of the digits a text starts with. -/
def leadingValue (s : List UInt8) : Nat := value (s.takeWhile (IsDigit ·))

/-- The text of a number. -/
def text (n : Nat) : List UInt8 := (Nat.toDigits 10 n).map Char.toUInt8

/-- The text of an integer, with a `-` in front of a negative one. -/
def intText : Int → List UInt8
  | .ofNat n => text n
  | .negSucc n => 45 :: text (n + 1)

variable {n : Nat} {s t : List UInt8}

theorem leadingValue_of_digits (h : ∀ b ∈ s, IsDigit b) : leadingValue s = value s := by
  rw [leadingValue, List.takeWhile_eq_self_iff.2 fun b hb => decide_eq_true (h b hb)]

/-! ### Numbers -/

theorem text_eq (n : Nat) : text n =
    if n < 10 then [(Nat.digitChar n).toUInt8] else text (n / 10) ++ [(Nat.digitChar (n % 10)).toUInt8] := by
  rw [text, Nat.toDigits_eq_if (by decide)]
  split
  · rfl
  · rw [List.map_append]
    rfl

theorem text_ne_nil (n : Nat) : text n ≠ [] :=
  fun h => Nat.toDigits_ne_nil (List.map_eq_nil_iff.1 h)

private theorem ofUInt8_toUInt8 {c : Char} (h : c.isDigit) : Char.ofUInt8 c.toUInt8 = c := by
  rw [Char.isDigit, Bool.and_eq_true, decide_eq_true_eq, decide_eq_true_eq] at h
  have hle : c.val.toNat ≤ 57 := h.2
  apply Char.ext
  rw [← UInt32.toNat_inj]
  show c.val.toNat % 256 = c.val.toNat
  omega

theorem value_text (n : Nat) : value (text n) = n := by
  have hchars : (Nat.toDigits 10 n).map (Char.ofUInt8 ∘ Char.toUInt8) = Nat.toDigits 10 n := by
    refine (List.map_congr_left fun c hc => ?_).trans (List.map_id _)
    exact ofUInt8_toUInt8 (Nat.isDigit_of_mem_toDigits (by decide) (by decide) hc)
  rw [value, text, List.map_map, hchars, Nat.ofDigitChars_ten_toDigits]

theorem text_injective : Function.Injective text :=
  Function.LeftInverse.injective value_text

theorem isDigit_of_mem_text {b : UInt8} (h : b ∈ text n) : IsDigit b := by
  obtain ⟨c, hc, rfl⟩ := List.mem_map.1 h
  have hdigit := Nat.isDigit_of_mem_toDigits (by decide) (by decide) hc
  rw [Char.isDigit, Bool.and_eq_true, decide_eq_true_eq, decide_eq_true_eq] at hdigit
  have hge : 48 ≤ c.val.toNat := hdigit.1
  have hle : c.val.toNat ≤ 57 := hdigit.2
  have hbyte : c.toUInt8.toNat = c.val.toNat := show c.val.toNat % 256 = _ by omega
  exact ⟨UInt8.le_iff_toNat_le.2 (hbyte ▸ hge), UInt8.le_iff_toNat_le.2 (hbyte ▸ hle)⟩

/-- The beginning of the text of a number is the text of a number, without a leading zero. -/
theorem eq_text_of_append (h : text n = s ++ t) (hs : s ≠ []) : ∃ m, s = text m ∧ m ≤ n ∧ (0 < n → 0 < m) := by
  induction n using Nat.strong_induction_on generalizing t with
  | _ n ih =>
    rcases List.eq_nil_or_concat t with rfl | ⟨t, b, rfl⟩
    · exact ⟨n, (h.trans (List.append_nil s)).symm, Nat.le_refl n, id⟩
    · rw [text_eq, List.concat_eq_append, ← List.append_assoc] at h
      split at h
      · have hnil : [] = s ++ t := (List.append_inj' (show [] ++ [_] = (s ++ t) ++ [b] from h) rfl).1
        exact absurd (List.append_eq_nil_iff.1 hnil.symm).1 hs
      · obtain ⟨m, hm, hle, hpos⟩ := ih (n / 10) (by omega) (List.append_inj' h rfl).1
        exact ⟨m, hm, by omega, fun _ => hpos (by omega)⟩

/-! ### Integers -/

theorem intText_ne_nil (x : Int) : intText x ≠ [] := by
  cases x with
  | ofNat n => exact text_ne_nil n
  | negSucc n => exact List.cons_ne_nil _ _

theorem minus_notMem_text (n : Nat) : 45 ∉ text n :=
  fun h => absurd (isDigit_of_mem_text h) (by decide)

theorem of_mem_intText {x : Int} {b : UInt8} (h : b ∈ intText x) : b = 45 ∨ IsDigit b := by
  cases x with
  | ofNat n => exact Or.inr (isDigit_of_mem_text h)
  | negSucc n => exact (List.mem_cons.1 h).imp_right isDigit_of_mem_text

private theorem text_ne_intText_negSucc (n m : Nat) : text n ≠ intText (.negSucc m) :=
  fun h => minus_notMem_text n (h ▸ List.mem_cons_self)

theorem intText_injective : Function.Injective intText := by
  intro x y h
  cases x with
  | ofNat n =>
    cases y with
    | ofNat m => exact congrArg Int.ofNat (text_injective h)
    | negSucc m => exact absurd h (text_ne_intText_negSucc n m)
  | negSucc n =>
    cases y with
    | ofNat m => exact absurd h.symm (text_ne_intText_negSucc m n)
    | negSucc m =>
      have htext : text (n + 1) = text (m + 1) := (List.cons.inj h).2
      rw [Nat.succ.inj (text_injective htext)]

/-- The beginning of the text of an integer is a `-` or the text of an integer that is no further from zero. -/
theorem eq_intText_of_append {x : Int} (h : intText x = s ++ t) (hs : s ≠ []) :
    s = [45] ∨ ∃ y, s = intText y ∧ min x 0 ≤ y ∧ y ≤ max x 0 := by
  cases x with
  | ofNat n =>
    obtain ⟨m, hm, hle, -⟩ := eq_text_of_append h hs
    have hge : (0 : Int) ≤ m := Int.natCast_nonneg m
    have hle : (m : Int) ≤ n := Int.ofNat_le.2 hle
    exact Or.inr ⟨.ofNat m, hm, Int.le_trans (Int.min_le_right _ _) hge, Int.le_trans hle (Int.le_max_left _ _)⟩
  | negSucc n =>
    obtain ⟨b, s, rfl⟩ := List.exists_cons_of_ne_nil hs
    obtain ⟨rfl, htext⟩ := List.cons.inj h
    by_cases hnil : s = []
    · exact Or.inl (by rw [hnil])
    · obtain ⟨m, hm, hle, hpos⟩ := eq_text_of_append htext hnil
      obtain ⟨k, rfl⟩ := Nat.exists_eq_succ_of_ne_zero (Nat.pos_iff_ne_zero.1 (hpos (Nat.succ_pos n)))
      exact Or.inr ⟨.negSucc k, congrArg (List.cons 45) hm, by omega, by omega⟩

end Decimal
