import Mathlib.Algebra.Order.Group.Nat

/-!
# Little-endian words

`littleEndian w n` is the `w`-byte little-endian word of `n`, reduced to the width of the word, and `wordValue` the
number a word stands for.  The two are inverse to each other on words and on numbers that fit.
-/

/-- The `w`-byte little-endian word of a number. -/
def littleEndian : Nat → Nat → List UInt8
  | 0, _ => []
  | w + 1, n => UInt8.ofNat n :: littleEndian w (n / 256)

/-- The number a little-endian word stands for. -/
def wordValue : List UInt8 → Nat
  | [] => 0
  | b :: bs => b.toNat + 256 * wordValue bs

@[simp] theorem length_littleEndian (w n : Nat) : (littleEndian w n).length = w := by
  induction w generalizing n with
  | zero => rfl
  | succ w ih => rw [littleEndian, List.length_cons, ih]

theorem wordValue_littleEndian (w n : Nat) : wordValue (littleEndian w n) = n % 256 ^ w := by
  induction w generalizing n with
  | zero => simp [littleEndian, wordValue, Nat.mod_one]
  | succ w ih =>
    rw [littleEndian, wordValue, ih, Nat.pow_succ', Nat.mod_mul, UInt8.toNat_ofNat']

theorem wordValue_littleEndian_of_lt {w n : Nat} (h : n < 256 ^ w) : wordValue (littleEndian w n) = n := by
  rw [wordValue_littleEndian, Nat.mod_eq_of_lt h]

theorem wordValue_lt (bs : List UInt8) : wordValue bs < 256 ^ bs.length := by
  induction bs with
  | nil => decide
  | cons b bs ih =>
    have hb := b.toNat_lt
    rw [wordValue, List.length_cons, Nat.pow_succ']
    omega

theorem littleEndian_wordValue (bs : List UInt8) : littleEndian bs.length (wordValue bs) = bs := by
  induction bs with
  | nil => rfl
  | cons b bs ih =>
    have hb := b.toNat_lt
    have hlow : UInt8.ofNat (b.toNat + 256 * wordValue bs) = b := by
      rw [← UInt8.toNat_inj, UInt8.toNat_ofNat']
      omega
    have hhigh : (b.toNat + 256 * wordValue bs) / 256 = wordValue bs := by omega
    rw [List.length_cons, wordValue, littleEndian, hlow, hhigh, ih]
