import Mathlib.Algebra.Order.Field.Rat
import Mathlib.Algebra.Ring.Parity
import BranchFlow.Binary64

/-!
# What numbers and words stand for

A word of the format has one bit for the sign, eleven for the exponent and 52 for the fraction, and
`decode` is the number that it stands for, read off these fields alone.  `RoundsTo` says what it
means to round a natural number to 53 bits, without a way to compute it.
-/

namespace BranchFlow.Binary64

/-- The number `mantissa · 2 ^ exponent`. -/
def value (x : Binary64) : ℚ := x.mantissa * 2 ^ x.exponent

/-! ## Fields of a word -/

/-- The sign bit. -/
def signField (w : UInt64) : Nat := w.toNat / 2 ^ 63

/-- The exponent of the word, as it is stored. -/
def exponentField (w : UInt64) : Nat := w.toNat / 2 ^ 52 % 2 ^ 11

/-- The mantissa of the word without its leading bit. -/
def fractionField (w : UInt64) : Nat := w.toNat % 2 ^ 52

/-- The number that a finite word stands for.  The exponent field zero marks the
numbers without a leading bit. -/
def decode (w : UInt64) : ℚ :=
  (if signField w = 0 then 1 else -1) *
    (if exponentField w = 0 then (fractionField w : ℚ) * 2 ^ (-1074 : Int)
    else ((2 ^ 52 + fractionField w : Nat) : ℚ) * 2 ^ ((exponentField w : Int) - 1075))

/-! ## Place and units -/

/-- The place of the last bit of a word, counted from the lowest one. -/
def place (w : UInt64) : ℕ := w.toNat / 2 ^ 52 - 1

/-- How many units of its last place a word has. -/
def units (w : UInt64) : ℕ := w.toNat - place w * 2 ^ 52

theorem toNat_eq (w : UInt64) : w.toNat = place w * 2 ^ 52 + units w := by
  rw [units, place]
  omega

theorem units_lt (w : UInt64) : units w < 2 ^ 53 := by
  rw [units, place]
  omega

theorem le_units (w : UInt64) : place w = 0 ∨ 2 ^ 52 ≤ units w := by
  rw [units, place]
  omega

/-! ## Significant bits -/

/-- A natural number with at most `k` significant bits. -/
def Significant (k n : ℕ) : Prop := ∃ m e, m < 2 ^ k ∧ n = m * 2 ^ e

/-- The number `x` rounded to 53 significant bits is `m * 2 ^ e`, nearest with ties to even. -/
structure RoundsTo (x m e : ℕ) : Prop where
  /-- There are no more than 53 bits from the first one to the place `e`. -/
  lt : x < 2 ^ (53 + e)
  /-- There are no less either, unless `e` is the place of the units. -/
  le : e = 0 ∨ 2 ^ (52 + e) ≤ x
  /-- It is at most half a unit of the last place away. -/
  near : 2 * |(x : ℤ) - (m * 2 ^ e : ℕ)| ≤ (2 ^ e : ℕ)
  /-- Halfway between two neighbours the even one is taken. -/
  even : 2 * |(x : ℤ) - (m * 2 ^ e : ℕ)| = (2 ^ e : ℕ) → Even m

end BranchFlow.Binary64
