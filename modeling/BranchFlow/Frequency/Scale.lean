import BranchFlow.Failure
import BranchFlow.Frequency.Basic
import BranchFlow.Probability.Basic

/-!
# Scaling a frequency

`Frequency.scale` takes a frequency `f` and a ratio `n / d` to the floor of `f * n / d`.  The
product always fits in 128 bits (`toNat_product`), so the only rounding is that of the division.
The remainder, which is less than `d`, comes with the result.

A quotient of `2 ^ 64` or more is held at the ceiling.  The remainder is then `d` itself, which no
division gives, and a `Saturation` records the scaling that was asked for.
-/

namespace BranchFlow

/-! ## Results of scaling -/

/-- A scaling whose exact result did not fit. -/
structure Saturation where
  /-- The frequency before the scaling. -/
  frequency : Frequency
  /-- The ratio by which it was to be scaled. -/
  ratio : Ratio
deriving DecidableEq, Repr

namespace Saturation

/-- What a saturation is reported as. -/
def message : String := "block frequency saturated"

/-- How urgent the report is: of interest only to one who traces the analysis. -/
def level : String := "TRACE"

/-- The numbers of the report. -/
def fields (s : Saturation) : List (String × Nat) :=
  [("frequency", s.frequency.toNat), ("numerator", s.ratio.num.toNat),
    ("denominator", s.ratio.den.toNat)]

end Saturation

/-- What scaling a frequency gives. -/
structure Scaled where
  /-- The scaled frequency. -/
  value : Frequency
  /-- The remainder of the division, or the denominator if the result saturated. -/
  remainder : UInt32
  /-- The saturation, if there was one. -/
  saturation : Option Saturation
deriving DecidableEq, Repr

namespace Frequency

/-! ## The division in 128 bits -/

/-- The frequency times a numerator. -/
def product (f : Frequency) (num : UInt32) : BitVec 128 :=
  f.units.toBitVec.setWidth 128 * num.toBitVec.setWidth 128

/-- The product over the denominator, rounded down. -/
def quotient (f : Frequency) (r : Ratio) : BitVec 128 :=
  f.product r.num / r.den.toBitVec.setWidth 128

/-- What the division leaves over. -/
def remainder (f : Frequency) (r : Ratio) : BitVec 128 :=
  f.product r.num % r.den.toBitVec.setWidth 128

/-- The frequency scaled by a ratio, rounded down and held at the ceiling. -/
def scale (f : Frequency) (r : Ratio) : Scaled :=
  if (f.quotient r).toNat < UInt64.size then
    ⟨⟨.ofBitVec ((f.quotient r).setWidth 64)⟩, .ofBitVec ((f.remainder r).setWidth 32), none⟩
  else
    ⟨ceiling, r.den, some ⟨f, r⟩⟩

/-- The frequency scaled by a numerator and a denominator, promised not to be
zero. -/
def scaleBy (f : Frequency) (num den : UInt32) : Except Violation Scaled :=
  if h : den = 0 then .error .scaleByZeroDenominator else .ok (f.scale ⟨num, den, h⟩)

/-! ## Probabilities -/

/-- The frequency scaled by a probability. -/
def multiply (f : Frequency) (p : Probability) : Scaled := f.scale p.toRatio

/-- The frequency scaled by a probability upside down, promised not to be zero. -/
def divide (f : Frequency) (p : Probability) : Except Violation Scaled :=
  if h : p.num = 0 then .error .divisionByZeroProbability else .ok (f.scale (p.swap h))

/-- A denominator that is not zero is as good as a ratio. -/
theorem scaleBy_of_ne (f : Frequency) (num : UInt32) {den : UInt32} (h : den ≠ 0) :
    f.scaleBy num den = .ok (f.scale ⟨num, den, h⟩) := dif_neg h

theorem divide_of_eq (f : Frequency) {p : Probability} (h : p.num = 0) :
    f.divide p = .error .divisionByZeroProbability := dif_pos h

/-- Division by a probability that is not zero does not fail. -/
theorem divide_of_ne (f : Frequency) {p : Probability} (h : p.num ≠ 0) :
    f.divide p = .ok (f.scale (p.swap h)) := dif_neg h

instance : HMul Frequency Probability Frequency := ⟨fun f p => (f.multiply p).value⟩

instance : HDiv Frequency Probability (Except Violation Frequency) :=
  ⟨fun f p => (f.divide p).map Scaled.value⟩

/-- The operator does not fail where the division does not. -/
theorem div_of_ne (f : Frequency) {p : Probability} (h : p.num ≠ 0) :
    f / p = .ok (f.scale (p.swap h)).value := by
  show (f.divide p).map Scaled.value = _
  rw [divide_of_ne f h]
  rfl

/-! ## The division in natural numbers -/

theorem toNat_setWidth_units (f : Frequency) :
    (f.units.toBitVec.setWidth 128).toNat = f.toNat := by
  rw [BitVec.toNat_setWidth, UInt64.toNat_toBitVec]
  exact Nat.mod_eq_of_lt (Nat.lt_trans f.toNat_lt (by decide))

theorem toNat_setWidth_word (n : UInt32) : (n.toBitVec.setWidth 128).toNat = n.toNat := by
  rw [BitVec.toNat_setWidth, UInt32.toNat_toBitVec]
  exact Nat.mod_eq_of_lt (Nat.lt_trans n.toNat_lt (by decide))

/-- A product of a 64-bit and a 32-bit number does not wrap around in 128 bits. -/
theorem toNat_product (f : Frequency) (num : UInt32) :
    (f.product num).toNat = f.toNat * num.toNat := by
  rw [product, BitVec.toNat_mul, toNat_setWidth_units, toNat_setWidth_word]
  refine Nat.mod_eq_of_lt ?_
  calc f.toNat * num.toNat ≤ (2 ^ 64 - 1) * (2 ^ 32 - 1) :=
        Nat.mul_le_mul (Nat.le_pred_of_lt f.toNat_lt) (Nat.le_pred_of_lt num.toNat_lt)
    _ < 2 ^ 128 := by decide

/-- Nothing is lost in 128 bits, so the quotient is that of natural numbers. -/
theorem toNat_quotient (f : Frequency) (r : Ratio) :
    (f.quotient r).toNat = f.toNat * r.num.toNat / r.den.toNat := by
  rw [quotient, BitVec.toNat_udiv, toNat_product, toNat_setWidth_word]

theorem toNat_remainder (f : Frequency) (r : Ratio) :
    (f.remainder r).toNat = f.toNat * r.num.toNat % r.den.toNat := by
  rw [remainder, BitVec.toNat_umod, toNat_product, toNat_setWidth_word]

/-- A quotient that fits is the value, and the remainder is that of the division. -/
theorem scale_of_lt {f : Frequency} {r : Ratio}
    (h : f.toNat * r.num.toNat / r.den.toNat < UInt64.size) :
    (f.scale r).value.toNat = f.toNat * r.num.toNat / r.den.toNat ∧
      (f.scale r).remainder.toNat = f.toNat * r.num.toNat % r.den.toNat ∧
      (f.scale r).saturation = none := by
  have hr : f.toNat * r.num.toNat % r.den.toNat < 2 ^ 32 :=
    Nat.lt_trans (Nat.mod_lt _ r.den_pos) r.den.toNat_lt
  have hq : (f.quotient r).toNat < UInt64.size := by rwa [toNat_quotient]
  rw [scale, if_pos hq]
  refine ⟨?_, ?_, rfl⟩
  · show ((f.quotient r).setWidth 64).toNat = _
    rw [BitVec.toNat_setWidth, toNat_quotient, Nat.mod_eq_of_lt h]
  · show ((f.remainder r).setWidth 32).toNat = _
    rw [BitVec.toNat_setWidth, toNat_remainder, Nat.mod_eq_of_lt hr]

/-- A quotient that does not fit saturates. -/
theorem scale_of_le {f : Frequency} {r : Ratio}
    (h : UInt64.size ≤ f.toNat * r.num.toNat / r.den.toNat) :
    f.scale r = ⟨ceiling, r.den, some ⟨f, r⟩⟩ := by
  have hq : ¬ (f.quotient r).toNat < UInt64.size := by
    rw [toNat_quotient]
    exact Nat.not_lt.mpr h
  rw [scale, if_neg hq]

/-- The value is the quotient held at the ceiling. -/
theorem toNat_scale_value (f : Frequency) (r : Ratio) :
    (f.scale r).value.toNat = min (UInt64.size - 1) (f.toNat * r.num.toNat / r.den.toNat) := by
  by_cases h : f.toNat * r.num.toNat / r.den.toNat < UInt64.size
  · rw [(scale_of_lt h).1]
    omega
  · rw [scale_of_le (Nat.le_of_not_lt h)]
    show ceiling.toNat = _
    rw [toNat_ceiling]
    omega

end Frequency

end BranchFlow
