/-!
# Nonnegative binary64 numbers

`nearest` rounds a quotient to a natural number, ties to even.  A positive quotient `q` is rounded
in steps of `2 ^ e`, where `2 ^ 52 ≤ q / 2 ^ e < 2 ^ 53`.  Rounding up can give the mantissa
`2 ^ 53`, which `Binary64.bits` writes as `2 ^ 52` at the next exponent: it adds the whole mantissa
to the exponent field, and the carry moves the field up.

The numbers of this library lie between `2 ^ (-32)` and `2 ^ 64` or are zero.  So subnormal numbers,
infinities and signs are left out.
-/

namespace BranchFlow

/-! ## Rounding a quotient -/

/-- The natural number nearest to `num / den`, the even one of two equally near. -/
def nearest (num den : Nat) : Nat :=
  if den < 2 * (num % den) ∨ (2 * (num % den) = den ∧ num / den % 2 = 1) then num / den + 1
  else num / den

theorem div_le_nearest (num den : Nat) : num / den ≤ nearest num den := by
  unfold nearest
  split <;> omega

theorem nearest_le_div_add_one (num den : Nat) : nearest num den ≤ num / den + 1 := by
  unfold nearest
  split <;> omega

/-- The rounded quotient is at most half a unit below the exact one. -/
theorem two_mul_le_two_mul_nearest_mul_add (num : Nat) {den : Nat} (h : 0 < den) :
    2 * num ≤ 2 * (nearest num den * den) + den := by
  have hdm := Nat.div_add_mod num den
  have hlt := Nat.mod_lt num h
  rw [Nat.mul_comm] at hdm
  unfold nearest
  split
  · rw [Nat.add_mul, Nat.one_mul]
    omega
  · omega

/-- The rounded quotient is at most half a unit above the exact one. -/
theorem two_mul_nearest_mul_le_two_mul_add (num den : Nat) :
    2 * (nearest num den * den) ≤ 2 * num + den := by
  have hdm := Nat.div_add_mod num den
  rw [Nat.mul_comm] at hdm
  unfold nearest
  split
  · rw [Nat.add_mul, Nat.one_mul]
    omega
  · omega

example : nearest 5 2 = 2 ∧ nearest 7 2 = 4 := by decide

/-! ## Numbers -/

/-- The number `mantissa · 2 ^ exponent`. -/
structure Binary64 where
  /-- The significant bits. -/
  mantissa : Nat
  /-- The exponent of the last bit. -/
  exponent : Int
deriving DecidableEq, Repr

namespace Binary64

/-! ## A number as a quotient of naturals -/

/-- The numerator of the number, the mantissa shifted by a positive exponent. -/
def num (x : Binary64) : Nat := x.mantissa <<< x.exponent.toNat

/-- The denominator of the number, a power of two for a negative exponent. -/
def den (x : Binary64) : Nat := 1 <<< (-x.exponent).toNat

theorem den_pos (x : Binary64) : 0 < x.den := by
  rw [den, Nat.shiftLeft_eq, Nat.one_mul]
  exact Nat.two_pow_pos _

/-! ## Rounding to 53 bits -/

/-- The least mantissa of 53 bits. -/
def leadingBit : Nat := 1 <<< 52

/-- The exponent `e` at which `num / den` has 53 bits before the point.  The
difference of the binary lengths is the answer or one above it. -/
def unitExponent (num den : Nat) : Int :=
  let e : Int := num.log2 - den.log2 - 52
  if num <<< (-e).toNat < leadingBit * (den <<< e.toNat) then e - 1 else e

/-- The quotient `num / den` rounded to 53 significant bits.  The denominator is
not zero. -/
def ofRatio (num den : Nat) : Binary64 :=
  let e := unitExponent num den
  ⟨nearest (num <<< (-e).toNat) (den <<< e.toNat), e⟩

/-- A natural number rounded to 53 significant bits. -/
def ofNat (n : Nat) : Binary64 := ofRatio n 1

/-- The exact quotient of two numbers, rounded.  The divisor is not zero. -/
def div (x y : Binary64) : Binary64 := ofRatio (x.num * y.den) (x.den * y.num)

instance : Div Binary64 := ⟨div⟩

/-! ## The 64 bits -/

/-- The format: a sign, eleven bits for the exponent of the last place plus 1075,
and the mantissa without its leading bit. -/
def bits (x : Binary64) : UInt64 :=
  if x.mantissa = 0 then 0
  else ((x.exponent + 1074).toNat * leadingBit + x.mantissa).toUInt64

example : (ofNat 1).bits = 0x3ff0000000000000 := by decide +kernel
example : (ofNat 3 / ofNat 4).bits = 0x3fe8000000000000 := by decide +kernel
/-- The carry of `2 ^ 64 - 1` reaches the exponent. -/
example : (ofNat 0xffffffffffffffff).bits = 0x43f0000000000000 := by decide +kernel

end Binary64

end BranchFlow
