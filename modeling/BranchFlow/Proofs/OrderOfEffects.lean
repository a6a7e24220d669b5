import BranchFlow.Proofs.Scale

/-!
# Ratios are ordered by their effect

Scaling is monotone, so the order of ratios is that of what they do to a frequency.  For the
converse, two ratios of different values need a frequency that tells them apart after rounding,
however close they are.  The denominator of the greater ratio is one: the greater ratio scales it to
its own numerator exactly, and the lesser one stays below that already before it is rounded.
-/

namespace BranchFlow

/-! ## Ratios -/

/-- The frequency of as many units as a word counts. -/
def Frequency.ofWord (n : UInt32) : Frequency := ⟨n.toUInt64⟩

@[simp] theorem Frequency.toNat_ofWord (n : UInt32) : (ofWord n).toNat = n.toNat := rfl

namespace Ratio

open Frequency

/-- A ratio takes its denominator to its numerator. -/
theorem toNat_scale_ofWord_den (a : Ratio) :
    ((ofWord a.den).scale a).value.toNat = a.num.toNat := by
  have hsize : UInt64.size = 2 ^ 64 := rfl
  have hnum := a.num.toNat_lt
  rw [toNat_scale_value, toNat_ofWord, Nat.mul_div_cancel_left _ a.den_pos]
  omega

/-- A lesser ratio takes the denominator of a greater one to less than its numerator. -/
theorem toNat_scale_ofWord_den_lt {a b : Ratio}
    (h : b.num.toNat * a.den.toNat < a.num.toNat * b.den.toNat) :
    ((ofWord a.den).scale b).value.toNat < a.num.toNat := by
  rw [toNat_scale_value, toNat_ofWord]
  refine Nat.lt_of_le_of_lt (Nat.min_le_right ..) ?_
  rw [Nat.div_lt_iff_lt_mul b.den_pos, Nat.mul_comm a.den.toNat]
  exact h

/-- The order of two ratios is that of what they do to every frequency. -/
theorem cross_le_iff_forall_scale_le (a b : Ratio) :
    a.num.toNat * b.den.toNat ≤ b.num.toNat * a.den.toNat ↔
      ∀ f : Frequency, (f.scale a).value ≤ (f.scale b).value := by
  constructor
  · intro h f
    exact scale_value_mono (UInt64.le_refl f.units) h
  · intro h
    by_contra hlt
    have hseparated := toNat_scale_ofWord_den_lt (Nat.lt_of_not_le hlt)
    have hle := le_iff_toNat_le.mp (h (ofWord a.den))
    rw [toNat_scale_ofWord_den] at hle
    omega

end Ratio

/-! ## Probabilities -/

namespace Probability

open Frequency

theorem le_iff_forall_mul_le (p q : Probability) : p ≤ q ↔ ∀ f : Frequency, f * p ≤ f * q :=
  le_iff.trans (Ratio.cross_le_iff_forall_scale_le p.toRatio q.toRatio)

/-- Division is scaling by the ratio upside down, which turns the order around. -/
theorem le_iff_forall_div_le {p q : Probability} (hp : p.num ≠ 0) (hq : q.num ≠ 0) :
    p ≤ q ↔ ∀ f : Frequency, ∃ x y, f / q = .ok x ∧ f / p = .ok y ∧ x ≤ y := by
  rw [← cross_swap_le_iff hp hq, Ratio.cross_le_iff_forall_scale_le]
  refine forall_congr' fun f => ?_
  rw [div_of_ne f hp, div_of_ne f hq]
  constructor
  · intro h
    exact ⟨_, _, rfl, rfl, h⟩
  · rintro ⟨x, y, hx, hy, hxy⟩
    cases hx
    cases hy
    exact hxy

/-- Probabilities of one value are those that multiply every frequency alike. -/
theorem beq_iff_forall_mul_eq (p q : Probability) :
    p == q ↔ ∀ f : Frequency, f * p = f * q := by
  rw [beq_iff_le_and_le, le_iff_forall_mul_le, le_iff_forall_mul_le, ← forall_and]
  refine forall_congr' fun f => ?_
  rw [le_iff_toNat_le, le_iff_toNat_le, ← toNat_inj]
  omega

/-- The order of probabilities is exactly the order of their effect.  A probability is at
most another one if and only if it multiplies every frequency to at most as much, and,
where none of them is zero, if and only if it divides every frequency to at least as
much.  Two are equal by value if and only if they multiply every frequency alike. -/
theorem order_iff_effect (p q : Probability) :
    (p ≤ q ↔ ∀ f : Frequency, f * p ≤ f * q) ∧
      (p.num ≠ 0 → q.num ≠ 0 →
        (p ≤ q ↔ ∀ f : Frequency, ∃ x y, f / q = .ok x ∧ f / p = .ok y ∧ x ≤ y)) ∧
      (p == q ↔ ∀ f : Frequency, f * p = f * q) :=
  ⟨p.le_iff_forall_mul_le q, le_iff_forall_div_le, p.beq_iff_forall_mul_eq q⟩

/-- Two probabilities that differ by less than `2 ^ -63` are still told apart. -/
theorem order_iff_effect_of_close :
    let p : Probability := { num := 4294967293, den := 4294967294 }
    let q : Probability := { num := 4294967294, den := 4294967295 }
    p.num ≠ 0 ∧ q.num ≠ 0 ∧
      (∀ f : Frequency, ∃ x y, f / q = .ok x ∧ f / p = .ok y ∧ x ≤ y) ∧
      ¬ ∀ f : Frequency, f * p = f * q := by
  intro p q
  have hp : p.num ≠ 0 := by decide
  have hq : q.num ≠ 0 := by decide
  obtain ⟨-, hdiv, heq⟩ := order_iff_effect p q
  exact ⟨hp, hq, (hdiv hp hq).mp (by decide), mt heq.mpr (by decide)⟩

end Probability

end BranchFlow
