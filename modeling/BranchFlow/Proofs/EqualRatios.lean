import BranchFlow.Proofs.ScaleContract

/-!
# Ratios of one value act alike

Two ratios of one value may have any terms.  A scaling tells them apart only by the size of its
remainder, which is in the proportion of their denominators (`Ratio.mul_div_eq`,
`Ratio.mul_mod_mul_eq`).
-/

namespace BranchFlow

/-- Two scalings come to the same: their values are equal, and either both of them saturated
or none did. -/
structure Scaled.Alike (x y : Scaled) : Prop where
  value : x.value = y.value
  saturation : x.saturation.isSome = y.saturation.isSome

/-! ## Ratios -/

section

variable {a b : Ratio} (hab : a.num.toNat * b.den.toNat = b.num.toNat * a.den.toNat)

include hab

/-- Two ratios of one value have one floor. -/
theorem Ratio.mul_div_eq (x : Nat) :
    x * a.num.toNat / a.den.toNat = x * b.num.toNat / b.den.toNat :=
  Nat.le_antisymm
    (Frequency.mul_div_le_mul_div a.den_pos b.den_pos (Nat.le_refl x) (Nat.le_of_eq hab))
    (Frequency.mul_div_le_mul_div b.den_pos a.den_pos (Nat.le_refl x) (Nat.le_of_eq hab.symm))

/-- What the floors leave over is the same part of the denominators. -/
theorem Ratio.mul_mod_mul_eq (x : Nat) :
    x * a.num.toNat % a.den.toNat * b.den.toNat
      = x * b.num.toNat % b.den.toNat * a.den.toNat := by
  calc x * a.num.toNat % a.den.toNat * b.den.toNat
      = x * a.num.toNat * b.den.toNat % (a.den.toNat * b.den.toNat) :=
        (Nat.mul_mod_mul_right ..).symm
    _ = x * b.num.toNat * a.den.toNat % (b.den.toNat * a.den.toNat) := by
        rw [Nat.mul_assoc, hab, ← Nat.mul_assoc, Nat.mul_comm a.den.toNat]
    _ = x * b.num.toNat % b.den.toNat * a.den.toNat := Nat.mul_mod_mul_right ..

namespace Frequency

/-- Scaling by ratios of one value gives one value, and saturates by both or neither. -/
theorem scale_alike (f : Frequency) : (f.scale a).Alike (f.scale b) := by
  have hquot := Ratio.mul_div_eq hab f.toNat
  constructor
  case value => rw [← toNat_inj, toNat_scale_value, toNat_scale_value, hquot]
  case saturation =>
    rcases scale_cases f a with ⟨hlt, _, _, hs⟩ | ⟨hle, hs⟩
    · rw [hquot] at hlt
      rw [hs, (scale_of_lt hlt).2.2]
    · rw [hquot] at hle
      rw [hs, scale_of_le hle]
      rfl

/-- The remainders are in the proportion of the denominators, which stand for the remainders where
both saturate. -/
theorem remainder_mul_den (f : Frequency) :
    (f.scale a).remainder.toNat * b.den.toNat = (f.scale b).remainder.toNat * a.den.toNat := by
  have hquot := Ratio.mul_div_eq hab f.toNat
  rcases scale_cases f a with ⟨hlt, _, hr, _⟩ | ⟨hle, hs⟩
  · rw [hquot] at hlt
    rw [hr, (scale_of_lt hlt).2.1]
    exact Ratio.mul_mod_mul_eq hab f.toNat
  · rw [hquot] at hle
    rw [hs, scale_of_le hle]
    exact Nat.mul_comm ..

end Frequency

end

/-! ## Probabilities -/

namespace Probability

open Frequency

variable {p q : Probability}

theorem num_eq_zero_of_beq (h : p == q) (hp : p.num = 0) : q.num = 0 := by
  rw [beq_iff, hp] at h
  have hzero : q.num.toNat * p.den.toNat = 0 := h.symm.trans (Nat.zero_mul _)
  exact UInt32.toNat_inj.mp ((Nat.mul_eq_zero.mp hzero).resolve_right p.den_pos.ne')

theorem mul_eq_mul_of_beq (h : p == q) (f : Frequency) : f * p = f * q :=
  (scale_alike (beq_iff.mp h) f).value

/-- Divisions by equal probabilities both fail or come to the same. -/
theorem divide_alike (h : p == q) (f : Frequency) :
    (f.divide p = .error .divisionByZeroProbability ∧
        f.divide q = .error .divisionByZeroProbability) ∨
      ∃ x y, f.divide p = .ok x ∧ f.divide q = .ok y ∧ x.Alike y := by
  by_cases hp : p.num = 0
  · exact .inl ⟨f.divide_of_eq hp, f.divide_of_eq (num_eq_zero_of_beq h hp)⟩
  · have hq : q.num ≠ 0 := fun hq => hp (num_eq_zero_of_beq (beq_symm h) hq)
    exact .inr ⟨_, _, f.divide_of_ne hp, f.divide_of_ne hq,
      scale_alike (cross_swap_eq h hp hq) f⟩

theorem div_eq_div_of_beq (h : p == q) (f : Frequency) : f / p = f / q := by
  show (f.divide p).map Scaled.value = (f.divide q).map Scaled.value
  rcases divide_alike h f with ⟨hp, hq⟩ | ⟨x, y, hp, hq, hxy⟩
  · rw [hp, hq]
  · rw [hp, hq]
    exact congrArg Except.ok hxy.value

theorem complement_beq_complement (h : p == q) : p.complement == q.complement := by
  rw [beq_iff] at h ⊢
  rw [toNat_complement_num, toNat_complement_num, complement_den, complement_den, Nat.sub_mul,
    Nat.sub_mul, h, Nat.mul_comm p.den.toNat]

end Probability

/-! ## Congruence -/

/-- Ratios of one value act alike on every frequency.  Scaling by them does not fail, leaves
the same value, saturates with both or with none of them, and returns remainders in the
proportion of the denominators, also where these stand for a saturation.  Probabilities
that are equal by value multiply alike.  Dividing by them fails with both or leaves the
same value and saturates with both or with none.  Their complements are equal. -/
theorem equal_ratios_act_alike (f : Frequency) :
    (∀ a b : Ratio, a.num.toNat * b.den.toNat = b.num.toNat * a.den.toNat →
      ∃ x y, f.scaleBy a.num a.den = .ok x ∧ f.scaleBy b.num b.den = .ok y ∧ x.Alike y ∧
        x.remainder.toNat * b.den.toNat = y.remainder.toNat * a.den.toNat) ∧
      ∀ p q : Probability, p == q →
        f * p = f * q ∧
          ((f.divide p = .error .divisionByZeroProbability ∧
              f.divide q = .error .divisionByZeroProbability) ∨
            ∃ x y, f.divide p = .ok x ∧ f.divide q = .ok y ∧ x.Alike y) ∧
          f / p = f / q ∧
          p.complement == q.complement := by
  constructor
  · intro a b hab
    exact ⟨_, _, f.scaleBy_ratio a, f.scaleBy_ratio b, Frequency.scale_alike hab f,
      Frequency.remainder_mul_den hab f⟩
  · intro p q h
    exact ⟨Probability.mul_eq_mul_of_beq h f, Probability.divide_alike h f,
      Probability.div_eq_div_of_beq h f, Probability.complement_beq_complement h⟩

/-- Both scalings and both divisions saturate, and the denominators that are returned are in
the proportion of the terms. -/
theorem equal_ratios_act_alike_of_saturated :
    let a : Ratio := { num := 3, den := 2 }
    let b : Ratio := { num := 6, den := 4 }
    let p : Probability := { num := 2, den := 6 }
    let q : Probability := { num := 1, den := 3 }
    a.num.toNat * b.den.toNat = b.num.toNat * a.den.toNat ∧ p == q ∧
      (∃ x y, Frequency.ceiling.scaleBy 3 2 = .ok x ∧ Frequency.ceiling.scaleBy 6 4 = .ok y ∧
        x.remainder.toNat * 4 = y.remainder.toNat * 2) ∧
      Frequency.ceiling * p = Frequency.ceiling * q ∧
      Frequency.ceiling / p = Frequency.ceiling / q ∧
      p.complement == q.complement := by
  intro a b p q
  have hab : a.num.toNat * b.den.toNat = b.num.toNat * a.den.toNat := by decide
  have hpq : p == q := by decide
  obtain ⟨hscale, hprob⟩ := equal_ratios_act_alike .ceiling
  obtain ⟨x, y, hx, hy, -, hrem⟩ := hscale a b hab
  obtain ⟨hmul, -, hdiv, hcompl⟩ := hprob p q hpq
  exact ⟨hab, hpq, ⟨x, y, hx, hy, hrem⟩, hmul, hdiv, hcompl⟩

end BranchFlow
