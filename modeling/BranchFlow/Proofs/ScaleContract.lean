import Mathlib.Logic.Basic
import BranchFlow.Proofs.Scale

/-!
# The contract of a scaling

A scaling *divides* or *saturates*, and what it returns says which.  The bound between the two is a
product of `2 ^ 64` times the denominator, so a quotient of exactly `2 ^ 64 - 1` is a division.
-/

namespace BranchFlow

open Frequency

namespace Scaled

/-- The outcome of a scaling that fits.  Nothing is reported, what is left over is less than
the denominator, and value and remainder account for the whole product. -/
structure Divides (x : Scaled) (f : Frequency) (r : Ratio) : Prop where
  fits : f.toNat * r.num.toNat < UInt64.size * r.den.toNat
  saturation : x.saturation = none
  remainder_lt : x.remainder < r.den
  product : f.toNat * r.num.toNat = x.value.toNat * r.den.toNat + x.remainder.toNat

/-- The outcome of a scaling that does not fit.  The value is held at the ceiling, the
denominator stands for the remainder, and the frequency before the scaling is reported
with the ratio. -/
structure Saturates (x : Scaled) (f : Frequency) (r : Ratio) : Prop where
  exceeds : UInt64.size * r.den.toNat ≤ f.toNat * r.num.toNat
  value : x.value = ceiling
  remainder : x.remainder = r.den
  saturation : x.saturation = some ⟨f, r⟩

variable {x : Scaled} {f g : Frequency} {r : Ratio}

theorem Divides.not_saturates (h : x.Divides f r) : ¬ x.Saturates f r :=
  fun h' => Nat.not_lt.mpr h'.exceeds h.fits

theorem Divides.div_lt (h : x.Divides f r) :
    f.toNat * r.num.toNat / r.den.toNat < UInt64.size :=
  (Nat.div_lt_iff_lt_mul r.den_pos).mpr h.fits

/-- A division leaves nothing over if and only if the denominator divides the product. -/
theorem Divides.den_dvd_iff (h : x.Divides f r) :
    r.den.toNat ∣ f.toNat * r.num.toNat ↔ x.remainder.toNat = 0 := by
  rw [h.product, Nat.dvd_add_right (Nat.dvd_mul_left ..)]
  constructor
  · intro hdvd
    exact Nat.eq_zero_of_dvd_of_lt hdvd (UInt32.lt_iff_toNat_lt.mp h.remainder_lt)
  · intro hzero
    rw [hzero]
    exact Nat.dvd_zero _

/-- A frequency is what its product leaves, over the numerator. -/
theorem Divides.toNat_eq (h : x.Divides f r) (hn : r.num ≠ 0) :
    f.toNat = (x.value.toNat * r.den.toNat + x.remainder.toNat) / r.num.toNat := by
  rw [← h.product, Nat.mul_div_cancel _ (Nat.pos_of_ne_zero (Ratio.toNat_ne_zero hn))]

/-- Two frequencies that are divided into one value and one remainder are equal. -/
theorem Divides.frequency_eq {y : Scaled} (hx : x.Divides f r) (hy : y.Divides g r)
    (hn : r.num ≠ 0) (hvalue : y.value = x.value) (hrem : y.remainder = x.remainder) :
    g = f := by
  rw [← toNat_inj, hy.toNat_eq hn, hvalue, hrem, ← hx.toNat_eq hn]

end Scaled

namespace Frequency

/-- A ratio has a denominator to scale by. -/
theorem scaleBy_ratio (f : Frequency) (r : Ratio) :
    f.scaleBy r.num r.den = .ok (f.scale r) := scaleBy_of_ne f r.num r.den_ne_zero

variable {f : Frequency} {r : Ratio}

theorem divides_of_lt (h : f.toNat * r.num.toNat / r.den.toNat < UInt64.size) :
    (f.scale r).Divides f r := by
  obtain ⟨hv, hr, hs⟩ := scale_of_lt h
  refine ⟨(Nat.div_lt_iff_lt_mul r.den_pos).mp h, hs, ?_, ?_⟩
  · rw [UInt32.lt_iff_toNat_lt, hr]
    exact Nat.mod_lt _ r.den_pos
  · rw [hv, hr, Nat.div_add_mod']

theorem saturates_of_le (h : UInt64.size ≤ f.toNat * r.num.toNat / r.den.toNat) :
    (f.scale r).Saturates f r := by
  have hs := scale_of_le h
  exact ⟨(Nat.le_div_iff_mul_le r.den_pos).mp h, by rw [hs], by rw [hs], by rw [hs]⟩

theorem divides_or_saturates (f : Frequency) (r : Ratio) :
    (f.scale r).Divides f r ∨ (f.scale r).Saturates f r :=
  (Nat.lt_or_ge _ _).imp divides_of_lt saturates_of_le

/-- No division returns its denominator, so the remainder tells a saturation. -/
theorem remainder_eq_den_iff_saturates :
    (f.scale r).remainder = r.den ↔ (f.scale r).Saturates f r :=
  ⟨fun h => saturates_of_le ((remainder_eq_den_iff f r).mp h), fun h => h.remainder⟩

theorem divides_of_saturation_eq_none (h : (f.scale r).saturation = none) :
    (f.scale r).Divides f r := by
  refine (divides_or_saturates f r).resolve_right fun hsat => ?_
  rw [hsat.saturation] at h
  cases h

theorem saturates_of_saturation_ne_none (h : (f.scale r).saturation ≠ none) :
    (f.scale r).Saturates f r :=
  (divides_or_saturates f r).resolve_left fun hdiv => h hdiv.saturation

theorem divides_of_remainder_lt (h : (f.scale r).remainder < r.den) :
    (f.scale r).Divides f r :=
  (divides_or_saturates f r).resolve_right fun hsat => UInt32.ne_of_lt h hsat.remainder

/-- Scaling by a ratio does not fail and keeps a contract.  It either divides or
saturates, and never both.  It returns the denominator if and only if it saturated.  With
a numerator that is not zero, a division loses nothing: the frequency can be computed from
value and remainder, and no other frequency has the same two. -/
theorem scale_keeps_contract (f : Frequency) (r : Ratio) :
    f.scaleBy r.num r.den = .ok (f.scale r) ∧
      Xor ((f.scale r).Divides f r) ((f.scale r).Saturates f r) ∧
      ((f.scale r).remainder = r.den ↔ (f.scale r).Saturates f r) ∧
      (r.num ≠ 0 → (f.scale r).remainder < r.den →
        f.toNat = ((f.scale r).value.toNat * r.den.toNat + (f.scale r).remainder.toNat)
            / r.num.toNat ∧
          ∀ g : Frequency, (g.scale r).value = (f.scale r).value →
            (g.scale r).remainder = (f.scale r).remainder → g = f) := by
  refine ⟨scaleBy_ratio f r, ?_, remainder_eq_den_iff_saturates, ?_⟩
  · rcases divides_or_saturates f r with hdiv | hsat
    · exact .inl ⟨hdiv, hdiv.not_saturates⟩
    · exact .inr ⟨hsat, fun hdiv => hdiv.not_saturates hsat⟩
  · intro hn hrem
    have hdiv := divides_of_remainder_lt hrem
    refine ⟨hdiv.toNat_eq hn, fun g hvalue hrem' => ?_⟩
    have hdiv' : (g.scale r).Divides g r := divides_of_remainder_lt (by rwa [hrem'])
    exact hdiv.frequency_eq hdiv' hn hvalue hrem'

/-- A quotient of exactly the ceiling is a division, although the value does not tell it
from a saturation. -/
theorem scale_keeps_contract_at_ceiling :
    let r : Ratio := { num := 3, den := 3 }
    r.num ≠ 0 ∧ (ceiling.scale r).remainder < r.den ∧ (ceiling.scale r).value = ceiling ∧
      ceiling.toNat
        = ((ceiling.scale r).value.toNat * r.den.toNat + (ceiling.scale r).remainder.toNat)
          / r.num.toNat ∧
      ¬ (ceiling.scale r).Saturates ceiling r := by
  intro r
  have hn : r.num ≠ 0 := by decide
  have hrem : (ceiling.scale r).remainder < r.den := by decide +kernel
  obtain ⟨-, -, hiff, hlossless⟩ := scale_keeps_contract ceiling r
  exact ⟨hn, hrem, by decide +kernel, (hlossless hn hrem).1,
    fun hsat => UInt32.ne_of_lt hrem (hiff.mpr hsat)⟩

end Frequency

end BranchFlow
