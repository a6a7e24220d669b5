import Mathlib.Algebra.Order.Floor.Div
import BranchFlow.Proofs.ScaleContract

/-!
# Multiplying and dividing by one probability

Both round trips are one fact about a product that is cut in two (`div_add_ceilDiv`).  The first
scaling splits a product into a multiple of its own denominator and a remainder.  The second one
divides the multiple by the other term, so its floor misses exactly the ceiling of the remainder.
-/

namespace BranchFlow

/-! ## Floors and ceilings of the parts of a product -/

/-- Where a multiple is cut in two, the floor of one part and the ceiling of the other make up the
whole quotient.  The ceiling of a part `s + 1` is the floor of `s` plus one. -/
theorem div_add_ceilDiv {x s g e : Nat} (he : 0 < e) (h : x + s = g * e) :
    x / e + s ⌈/⌉ e = g := by
  cases s with
  | zero => rw [zero_ceilDiv, Nat.add_zero, ← Nat.add_zero x, h, Nat.mul_div_cancel _ he]
  | succ s =>
      have hs : s < e * g := by
        rw [Nat.mul_comm]
        omega
      have hx : x = e * g - (s + 1) := by
        rw [Nat.mul_comm]
        omega
      have hfloor : s / e < g := Nat.div_lt_of_lt_mul hs
      have hceil : (s + 1) ⌈/⌉ e = s / e + 1 := by
        rw [Nat.ceilDiv_eq_add_pred_div, Nat.succ_add_sub_one, Nat.add_div_right _ he]
      rw [hceil, hx, Nat.mul_sub_div _ _ _ hs]
      omega

/-- The ceiling of a proper fraction is one unit, unless it is zero. -/
theorem ceilDiv_eq_ite {s e : Nat} (h : s < e) : s ⌈/⌉ e = if s = 0 then 0 else 1 := by
  split
  next hs => rw [hs, zero_ceilDiv]
  next hs =>
    rw [Nat.ceilDiv_eq_add_pred_div]
    exact Nat.div_eq_of_lt_le (by omega) (by omega)

theorem ceilDiv_eq_zero_iff {s e : Nat} (he : 0 < e) : s ⌈/⌉ e = 0 ↔ s = 0 := by
  rw [← Nat.le_zero, ceilDiv_le_iff_le_mul he, Nat.mul_zero, Nat.le_zero]

theorem Probability.num_pos (p : Probability) (hp : p.num ≠ 0) : 0 < p.num.toNat :=
  (p.swap hp).den_pos

namespace Frequency

variable {f : Frequency} {p : Probability} {hp : p.num ≠ 0} {x : Scaled}

/-! ## Division first -/

/-- What a division left is multiplied back to the frequency, or to one unit less. -/
theorem toNat_mul_of_divides_swap (h : x.Divides f (p.swap hp)) :
    (x.value * p).toNat + (if p.num.toNat ∣ f.toNat * p.den.toNat then 0 else 1) = f.toNat := by
  have hproduct : x.value.toNat * p.num.toNat + x.remainder.toNat = f.toNat * p.den.toNat :=
    h.product.symm
  have hrem : x.remainder.toNat < p.num.toNat := UInt32.lt_iff_toNat_lt.mp h.remainder_lt
  have hdvd : p.num.toNat ∣ f.toNat * p.den.toNat ↔ x.remainder.toNat = 0 := h.den_dvd_iff
  have hceil := ceilDiv_eq_ite (Nat.lt_of_lt_of_le hrem p.num_le_den_toNat)
  simp only [hdvd]
  rw [toNat_mul, ← hceil]
  exact div_add_ceilDiv p.den_pos hproduct

/-- A division that saturates has lost more than a multiplication can bring back. -/
theorem mul_lt_of_saturates_swap (h : x.Saturates f (p.swap hp)) : x.value * p < f := by
  have hexceeds : UInt64.size * p.num.toNat ≤ f.toNat * p.den.toNat := h.exceeds
  rw [lt_iff_toNat_lt, toNat_mul, h.value, toNat_ceiling, Nat.div_lt_iff_lt_mul p.den_pos]
  have hceiling : UInt64.size - 1 < UInt64.size := by decide
  exact Nat.lt_of_lt_of_le (Nat.mul_lt_mul_of_pos_right hceiling (p.num_pos hp)) hexceeds

/-! ## Multiplication first -/

/-- A product is divided back without saturation, since the quotient is at most the frequency. -/
theorem divides_mul_swap (f : Frequency) (hp : p.num ≠ 0) :
    ((f * p).scale (p.swap hp)).Divides (f * p) (p.swap hp) := by
  refine divides_of_lt (Nat.lt_of_le_of_lt (Nat.div_le_of_le_mul ?_) f.toNat_lt)
  show (f * p).toNat * p.den.toNat ≤ p.num.toNat * f.toNat
  rw [Nat.mul_comm p.num.toNat]
  exact Nat.le_of_add_right_le (value_mul_den_add_remainder_le f p.toRatio)

/-- What a multiplication left is divided back to the frequency, less the ceiling of the
remainder over the numerator. -/
theorem toNat_scale_swap_mul_add_ceilDiv (f : Frequency) (hp : p.num ≠ 0) :
    ((f * p).scale (p.swap hp)).value.toNat + (f.multiply p).remainder.toNat ⌈/⌉ p.num.toNat
      = f.toNat := by
  have hproduct : (f * p).toNat * p.den.toNat + (f.multiply p).remainder.toNat
      = f.toNat * p.num.toNat :=
    value_mul_den_add_remainder (UInt32.ne_of_lt (remainder_multiply_lt f p))
  rw [(scale_of_lt (divides_mul_swap f hp).div_lt).1]
  exact div_add_ceilDiv (p.num_pos hp) hproduct

/-! ## Round trips -/

/-- Multiplication and division by one probability that is not zero undo each other up to
rounding.  Division comes first: if it does not saturate, the multiplication leads back to
the frequency where the numerator divides the product, and to one unit less where it does
not.  If it saturates, the multiplication leads to less.  Multiplication comes first: the
division does not saturate, and the ceiling of the remainder over the numerator is
missing, so it leads back exactly if there is no remainder. -/
theorem divide_and_multiply_round_trip (f : Frequency) {p : Probability} (hp : p.num ≠ 0) :
    (∃ x, f.divide p = .ok x ∧ f / p = .ok x.value ∧
      (x.saturation = none →
        (x.value * p).toNat + (if p.num.toNat ∣ f.toNat * p.den.toNat then 0 else 1) = f.toNat) ∧
      (x.saturation ≠ none → x.value * p < f)) ∧
    ∃ y, (f * p).divide p = .ok y ∧ f * p / p = .ok y.value ∧ y.saturation = none ∧
      y.value.toNat + (f.multiply p).remainder.toNat ⌈/⌉ p.num.toNat = f.toNat ∧
      y.value ≤ f ∧ (y.value = f ↔ (f.multiply p).remainder = 0) := by
  constructor
  · refine ⟨_, f.divide_of_ne hp, f.div_of_ne hp, fun hsat => ?_, fun hsat => ?_⟩
    · exact toNat_mul_of_divides_swap (divides_of_saturation_eq_none hsat)
    · exact mul_lt_of_saturates_swap (saturates_of_saturation_ne_none hsat)
  · have hsum := toNat_scale_swap_mul_add_ceilDiv f hp
    refine ⟨_, (f * p).divide_of_ne hp, (f * p).div_of_ne hp, (divides_mul_swap f hp).saturation,
      hsum, ?_, ?_⟩
    · rw [le_iff_toNat_le]
      omega
    · rw [← toNat_inj, ← UInt32.toNat_inj]
      have hzero := ceilDiv_eq_zero_iff (s := (f.multiply p).remainder.toNat) (p.num_pos hp)
      show _ ↔ _ = 0
      omega

/-- Two units below the ceiling the division saturates, and the product leaves one third of a
unit over, for which a whole unit is missing. -/
theorem divide_and_multiply_round_trip_of_saturated :
    let p : Probability := { num := 2, den := 3 }
    let f : Frequency := ⟨18446744073709551614⟩
    p.num ≠ 0 ∧ (∃ x, f.divide p = .ok x ∧ x.saturation ≠ none ∧ x.value * p < f) ∧
      ∃ y, f * p / p = .ok y ∧ y.toNat + 1 = f.toNat := by
  intro p f
  have hp : p.num ≠ 0 := by decide
  obtain ⟨⟨x, hx, -, -, hless⟩, y, -, hy, -, hmissing, -, -⟩ :=
    divide_and_multiply_round_trip f hp
  have hsat : x.saturation ≠ none := by
    have hover : (f.scale { num := 3, den := 2 }).saturation ≠ none := by decide +kernel
    cases (f.divide_of_ne hp).symm.trans hx
    exact hover
  have hceil : (f.multiply p).remainder.toNat ⌈/⌉ p.num.toNat = 1 := by decide +kernel
  rw [hceil] at hmissing
  exact ⟨hp, ⟨x, hx, hsat, hless hsat⟩, y.value, hy, hmissing⟩

end Frequency

end BranchFlow
