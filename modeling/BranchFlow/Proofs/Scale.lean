import Mathlib.Data.Nat.ModEq
import BranchFlow.Frequency.Scale

/-!
# Laws of scaling

What `Frequency.scale` does, in natural numbers.  Value and remainder account for the product,
unless the scaling saturates (`value_mul_den_add_remainder`).  Neither the floor nor the ceiling
turns an order around (`scale_value_mono`), and a probability never saturates
(`saturation_multiply`).
-/

namespace BranchFlow.Frequency

/-! ## The two cases of a scaling -/

/-- The quotient is below the bound of 64 bits, or it is not and all of the result
is known. -/
theorem scale_cases (f : Frequency) (r : Ratio) :
    (f.toNat * r.num.toNat / r.den.toNat < UInt64.size ∧
      (f.scale r).value.toNat = f.toNat * r.num.toNat / r.den.toNat ∧
      (f.scale r).remainder.toNat = f.toNat * r.num.toNat % r.den.toNat ∧
      (f.scale r).saturation = none) ∨
    (UInt64.size ≤ f.toNat * r.num.toNat / r.den.toNat ∧
      f.scale r = ⟨ceiling, r.den, some ⟨f, r⟩⟩) := by
  by_cases h : f.toNat * r.num.toNat / r.den.toNat < UInt64.size
  · exact .inl ⟨h, scale_of_lt h⟩
  · exact .inr ⟨Nat.le_of_not_lt h, scale_of_le (Nat.le_of_not_lt h)⟩

/-- The remainder is the denominator if and only if the quotient does not fit. -/
theorem remainder_eq_den_iff (f : Frequency) (r : Ratio) :
    (f.scale r).remainder = r.den ↔ UInt64.size ≤ f.toNat * r.num.toNat / r.den.toNat := by
  rcases scale_cases f r with ⟨hlt, _, hr, _⟩ | ⟨hle, hs⟩
  · have hmod := Nat.mod_lt (f.toNat * r.num.toNat) r.den_pos
    constructor
    · intro h
      rw [h] at hr
      omega
    · omega
  · simp [hs, hle]

/-- A scaling reports a saturation if and only if its exact quotient does not fit. -/
theorem saturation_scale (f : Frequency) (r : Ratio) :
    (f.scale r).saturation
      = if UInt64.size * r.den.toNat ≤ f.toNat * r.num.toNat then some ⟨f, r⟩ else none := by
  rcases scale_cases f r with ⟨hlt, _, _, hs⟩ | ⟨hle, hs⟩
  · rw [hs, if_neg]
    intro h
    exact Nat.not_le.mpr hlt ((Nat.le_div_iff_mul_le r.den_pos).mpr h)
  · rw [hs, if_pos ((Nat.le_div_iff_mul_le r.den_pos).mp hle)]

/-! ## Accounting -/

/-- Value and remainder account for the product, unless the scaling saturates. -/
theorem value_mul_den_add_remainder {f : Frequency} {r : Ratio}
    (h : (f.scale r).remainder ≠ r.den) :
    (f.scale r).value.toNat * r.den.toNat + (f.scale r).remainder.toNat
      = f.toNat * r.num.toNat := by
  rcases scale_cases f r with ⟨_, hv, hr, _⟩ | ⟨_, hs⟩
  · rw [hv, hr, Nat.div_add_mod']
  · exact absurd (by rw [hs]) h

/-- A scaling that saturates loses at least its denominator. -/
theorem value_mul_den_add_remainder_le (f : Frequency) (r : Ratio) :
    (f.scale r).value.toNat * r.den.toNat + (f.scale r).remainder.toNat
      ≤ f.toNat * r.num.toNat := by
  rcases scale_cases f r with ⟨_, hv, hr, _⟩ | ⟨hle, hs⟩
  · exact Nat.le_of_eq (by rw [hv, hr, Nat.div_add_mod'])
  · rw [hs]
    show ceiling.toNat * r.den.toNat + r.den.toNat ≤ _
    calc ceiling.toNat * r.den.toNat + r.den.toNat
        = UInt64.size * r.den.toNat := by
          rw [toNat_ceiling, ← Nat.succ_mul]
          rfl
      _ ≤ f.toNat * r.num.toNat := (Nat.le_div_iff_mul_le r.den_pos).mp hle

/-! ## Monotonicity -/

/-- The floor of a product by a ratio does not grow if neither factor does. -/
theorem mul_div_le_mul_div {x y n d n' d' : Nat} (hd : 0 < d) (hd' : 0 < d') (hxy : x ≤ y)
    (h : n * d' ≤ n' * d) : x * n / d ≤ y * n' / d' := by
  rw [Nat.le_div_iff_mul_le hd']
  have hfloor : x * n / d * d ≤ x * n := Nat.div_mul_le_self ..
  refine Nat.le_of_mul_le_mul_right ?_ hd
  calc x * n / d * d' * d
      = x * n / d * d * d' := Nat.mul_right_comm ..
    _ ≤ x * n * d' := Nat.mul_le_mul_right _ hfloor
    _ = x * (n * d') := Nat.mul_assoc ..
    _ ≤ y * (n' * d) := Nat.mul_le_mul hxy h
    _ = y * n' * d := (Nat.mul_assoc ..).symm

/-- Scaling is monotone in the frequency and in the value of the ratio. -/
theorem scale_value_mono {f g : Frequency} {a b : Ratio} (hfg : f ≤ g)
    (hab : a.num.toNat * b.den.toNat ≤ b.num.toNat * a.den.toNat) :
    (f.scale a).value ≤ (g.scale b).value := by
  rw [le_iff_toNat_le] at hfg ⊢
  rw [toNat_scale_value, toNat_scale_value]
  have := mul_div_le_mul_div a.den_pos b.den_pos hfg hab
  omega

/-! ## Probabilities -/

theorem toNat_mul_num_div_den_le (f : Frequency) (p : Probability) :
    f.toNat * p.num.toNat / p.den.toNat ≤ f.toNat := by
  refine Nat.div_le_of_le_mul ?_
  rw [Nat.mul_comm]
  exact Nat.mul_le_mul_right _ p.num_le_den_toNat

theorem toNat_mul_num_div_den_lt (f : Frequency) (p : Probability) :
    f.toNat * p.num.toNat / p.den.toNat < UInt64.size :=
  Nat.lt_of_le_of_lt (toNat_mul_num_div_den_le f p) f.toNat_lt

theorem toNat_mul (f : Frequency) (p : Probability) :
    (f * p).toNat = f.toNat * p.num.toNat / p.den.toNat :=
  (scale_of_lt (toNat_mul_num_div_den_lt f p)).1

/-- A probability is at most one, so multiplying by it does not saturate. -/
@[simp] theorem saturation_multiply (f : Frequency) (p : Probability) :
    (f.multiply p).saturation = none :=
  (scale_of_lt (toNat_mul_num_div_den_lt f p)).2.2

theorem remainder_multiply_lt (f : Frequency) (p : Probability) :
    (f.multiply p).remainder < p.den := by
  have hrem := (scale_of_lt (toNat_mul_num_div_den_lt f p)).2.1
  rw [UInt32.lt_iff_toNat_lt, multiply, hrem]
  exact Nat.mod_lt _ p.den_pos

theorem mul_le (f : Frequency) (p : Probability) : f * p ≤ f := by
  rw [le_iff_toNat_le, toNat_mul]
  exact toNat_mul_num_div_den_le f p

/-- Only zero and what is multiplied by one stay as they are. -/
theorem mul_eq_self_iff (f : Frequency) (p : Probability) :
    f * p = f ↔ f = 0 ∨ p.num = p.den := by
  rw [← toNat_inj, ← toNat_inj, ← UInt32.toNat_inj, toNat_mul, toNat_zero]
  constructor
  · intro h
    refine (Nat.eq_zero_or_pos f.toNat).imp_right fun hf => ?_
    have hfloor := Nat.div_mul_le_self (f.toNat * p.num.toNat) p.den.toNat
    rw [h] at hfloor
    exact Nat.le_antisymm p.num_le_den_toNat (Nat.le_of_mul_le_mul_left hfloor hf)
  · rintro (h | h)
    · rw [h, Nat.zero_mul, Nat.zero_div]
    · rw [h, Nat.mul_div_cancel _ p.den_pos]

/-- The floors of two shares that make up `g` miss one unit, unless both are exact. -/
theorem div_add_div_sub (g : Nat) {n d : Nat} (hd : 0 < d) (hn : n ≤ d) :
    g * n / d + g * (d - n) / d + (if g * n % d = 0 then 0 else 1) = g := by
  have hsum : g * n + g * (d - n) = g * d := by rw [← Nat.mul_add, Nat.add_sub_cancel' hn]
  have hquot : (g * n + g * (d - n)) / d = g := by rw [hsum, Nat.mul_div_cancel _ hd]
  split
  next h0 =>
    have hexact := Nat.add_div_of_dvd_right (b := g * (d - n)) (Nat.dvd_of_mod_eq_zero h0)
    rw [hquot] at hexact
    exact hexact.symm
  next h0 =>
    -- The two remainders are a multiple of `d` and not zero, so they carry one unit.
    have hcarry : d ≤ g * n % d + g * (d - n) % d := by
      refine Nat.le_mod_add_mod_of_dvd_add_of_not_dvd ?_ (mt Nat.mod_eq_zero_of_dvd h0)
      rw [hsum]
      exact Nat.dvd_mul_left ..
    rw [← Nat.add_div_eq_of_le_mod_add_mod hcarry hd, hquot]

/-- A frequency is the two shares of a branch, and one unit if it does not divide. -/
theorem toNat_mul_add_toNat_mul_complement (f : Frequency) (p : Probability) :
    (f * p).toNat + (f * p.complement).toNat
      + (if f.toNat * p.num.toNat % p.den.toNat = 0 then 0 else 1) = f.toNat := by
  rw [toNat_mul, toNat_mul, p.toNat_complement_num, p.complement_den]
  exact div_add_div_sub f.toNat p.den_pos p.num_le_den_toNat

end BranchFlow.Frequency
