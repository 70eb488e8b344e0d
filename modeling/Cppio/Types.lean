import Mathlib.Algebra.Ring.Int.Defs
import Mathlib.Algebra.Order.Group.Nat

/-!
# Bytes, machine integers and lines

The types every part of the library uses: bytes, the conversion of a wider integer to `int`, the error codes of
`cppio/errors.h`, and `IoException` and the virtual interface `IoLine` of `cppio/ioline.h`.  A line is given by its
two methods on a state of any type; its state carries all the choices an environment can make.
-/

namespace Cppio

/-- A `char` of a buffer. -/
abbrev Byte := UInt8

/-- The bytes of a string literal. -/
def ascii (s : String) : List Byte := s.toList.map Char.toUInt8

/-- The value of an integer converted to a 32-bit `int`. -/
def toInt32 (x : Int) : Int := Int.bmod x (2 ^ 32)

theorem toInt32_of_lt {n : Nat} (h : n < 2 ^ 31) : toInt32 n = n := by
  unfold toInt32
  rw [Int.bmod_eq_of_le] <;> omega

theorem toInt32_lt (x : Int) : toInt32 x < 2 ^ 31 := by
  have h := Int.bmod_lt (x := x) (m := 2 ^ 32) (by decide)
  unfold toInt32
  omega

theorem toInt32_le (n : Nat) : toInt32 n ≤ n := by
  unfold toInt32 Int.bmod
  simp only
  split <;> omega

/-- `cppio::ErrorCode`. -/
inductive ErrorCode where
  | eTimeout
  | eConnectionLost
  | eTooBigBuffer
  | eUnknown
deriving DecidableEq, Repr

def ErrorCode.code : ErrorCode → Int
  | .eTimeout => -1
  | .eConnectionLost => -2
  | .eTooBigBuffer => -3
  | .eUnknown => -100

theorem ErrorCode.code_neg (e : ErrorCode) : e.code < 0 := by
  cases e <;> decide

theorem toInt32_code (e : ErrorCode) : toInt32 e.code = e.code := by
  cases e <;> decide

/-- What `IoLine::read` does: it puts bytes into the caller's buffer and returns their number, or returns an error
code. -/
abbrev ReadResult := Except ErrorCode (List Byte)

/-- The returned `ssize_t`. -/
def ReadResult.value : ReadResult → Int
  | .ok bytes => bytes.length
  | .error e => e.code

/-- `cppio::IoException`. -/
structure IoException where
  what : String
deriving DecidableEq, Repr

/-- `cppio::IoLine`: `read` is given the length of the buffer, `write` the bytes of the buffer. -/
structure IoLine (σ : Type) where
  read : Nat → σ → ReadResult × σ
  write : List Byte → σ → Int × σ

end Cppio
