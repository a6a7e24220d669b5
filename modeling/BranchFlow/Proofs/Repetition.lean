import BranchFlow.Frequency.Chain
import BranchFlow.Proofs.RoundTrip

/-!
# The fates of repeated scaling

Multiplication by a probability below one takes at least one unit from every frequency that is not
zero.  Whether division adds one is decided by a threshold (`Grows`), which grows with the
frequency. So a frequency that grows once grows at every later step up to the ceiling, and one that
does not has come to rest before the first step.
-/

namespace BranchFlow.Frequency

variable {f g : Frequency} {p : Probability}

/-! ## Multiplication -/

/-- Below one, every multiplication takes away at least one unit, as long as there is one. -/
theorem mul_lt (hp : p.num < p.den) (hf : f ≠ 0) : f * p < f := by
  have hne : f * p ≠ f := by
    rw [Ne, mul_eq_self_iff, not_or]
    exact ⟨hf, UInt32.ne_of_lt hp⟩
  have hle := le_iff_toNat_le.mp (mul_le f p)
  rw [Ne, ← toNat_inj] at hne
  rw [lt_iff_toNat_lt]
  omega

@[simp] theorem zero_mul_probability (p : Probability) : (0 : Frequency) * p = 0 :=
  (mul_eq_self_iff 0 p).mpr (.inl rfl)

theorem value_multiplyTimes_succ (f : Frequency) (p : Probability) (k : Nat) :
    (f.multiplyTimes p (k + 1)).value = (f.multiplyTimes p k).value * p := rfl

/-- `k` multiplications take away at least `k` units, or all of them. -/
theorem toNat_multiplyTimes_le (f : Frequency) (hp : p.num < p.den) (k : Nat) :
    (f.multiplyTimes p k).value.toNat ≤ f.toNat - k := by
  induction k with
  | zero => exact Nat.le_refl _
  | succ k ih =>
      rw [value_multiplyTimes_succ]
      by_cases hzero : (f.multiplyTimes p k).value = 0
      · rw [hzero, zero_mul_probability, toNat_zero]
        exact Nat.zero_le _
      · have hlt := lt_iff_toNat_lt.mp (mul_lt hp hzero)
        omega

/-! ## The threshold of a division -/

/-- Whether division by `p` adds at least one unit to `f`, if it fits. -/
def Grows (f : Frequency) (p : Probability) : Prop :=
  p.num.toNat ≤ f.toNat * (p.den.toNat - p.num.toNat)

/-- The threshold of a division, without the difference. -/
theorem grows_iff (f : Frequency) (p : Probability) :
    f.Grows p ↔ (f.toNat + 1) * p.num.toNat ≤ f.toNat * p.den.toNat := by
  have hle : f.toNat * p.num.toNat ≤ f.toNat * p.den.toNat :=
    Nat.mul_le_mul_left _ p.num_le_den_toNat
  rw [Grows, Nat.mul_sub, Nat.succ_mul]
  omega

/-- A frequency above one that grows does so as well. -/
theorem Grows.mono (h : f.Grows p) (hfg : f ≤ g) : g.Grows p :=
  Nat.le_trans h (Nat.mul_le_mul_right _ (le_iff_toNat_le.mp hfg))

/-- A frequency below the threshold is its own quotient. -/
theorem div_eq_of_not_grows (h : ¬ f.Grows p) :
    f.toNat * p.den.toNat / p.num.toNat = f.toNat := by
  rw [grows_iff, Nat.not_le] at h
  exact Nat.div_eq_of_lt_le (Nat.mul_le_mul_left _ p.num_le_den_toNat) h

section

variable (hp : p.num ≠ 0)

include hp

theorem Grows.lt_div (h : f.Grows p) : f.toNat < f.toNat * p.den.toNat / p.num.toNat :=
  (Nat.le_div_iff_mul_le (p.num_pos hp)).mpr ((grows_iff f p).mp h)

theorem Grows.lt_value (h : f.Grows p) (hf : f ≠ ceiling) : f < (f.scale (p.swap hp)).value := by
  have hquot : f.toNat < f.toNat * (p.swap hp).num.toNat / (p.swap hp).den.toNat := h.lt_div hp
  have hlt := f.toNat_lt
  rw [Ne, ← toNat_inj, toNat_ceiling] at hf
  rw [lt_iff_toNat_lt, toNat_scale_value]
  omega

/-- At the ceiling there is no room for another unit. -/
theorem Grows.scale_ceiling (h : ceiling.Grows p) :
    ceiling.scale (p.swap hp) = ⟨ceiling, p.num, some ⟨ceiling, p.swap hp⟩⟩ :=
  scale_of_le (h.lt_div hp)

/-- Below the threshold a frequency is its own quotient, which always fits. -/
theorem scale_of_not_grows (h : ¬ f.Grows p) :
    (f.scale (p.swap hp)).value = f ∧ (f.scale (p.swap hp)).saturation = none := by
  have hquot : f.toNat * (p.swap hp).num.toNat / (p.swap hp).den.toNat = f.toNat :=
    div_eq_of_not_grows h
  obtain ⟨hvalue, -, hsat⟩ := scale_of_lt (hquot.trans_lt f.toNat_lt)
  exact ⟨toNat_inj.mp (hvalue.trans hquot), hsat⟩

/-! ## Division over and over -/

theorem divideTimes_succ {r : Traced Frequency} {k : Nat} (h : f.divideTimes p k = .ok r) :
    f.divideTimes p (k + 1) = .ok (r.next (r.value.scale (p.swap hp))) := by
  rw [divideTimes, h]
  show (do let x ← r.value.divide p; return r.next x) = _
  rw [divide_of_ne _ hp]
  rfl

/-- A frequency above the threshold stays above it and gains at least one unit by each
division that the ceiling has room for. -/
theorem divideTimes_of_grows (h : f.Grows p) (k : Nat) :
    ∃ r, f.divideTimes p k = .ok r ∧ r.value.Grows p ∧
      min (UInt64.size - 1) (f.toNat + k) ≤ r.value.toNat := by
  induction k with
  | zero => exact ⟨_, rfl, h, Nat.min_le_right ..⟩
  | succ k ih =>
      obtain ⟨r, hr, hgrows, hle⟩ := ih
      refine ⟨_, divideTimes_succ hp hr, ?_⟩
      by_cases hceil : r.value = ceiling
      · rw [hceil] at hgrows ⊢
        rw [hgrows.scale_ceiling hp]
        exact ⟨hgrows, Nat.min_le_left ..⟩
      · have hlt := lt_iff_toNat_lt.mp (hgrows.lt_value hp hceil)
        refine ⟨hgrows.mono (le_iff_toNat_le.mpr (Nat.le_of_lt hlt)), ?_⟩
        show _ ≤ (r.value.scale (p.swap hp)).value.toNat
        omega

/-- A frequency below the threshold rests at every step, and nothing is reported. -/
theorem divideTimes_of_not_grows (h : ¬ f.Grows p) (k : Nat) :
    f.divideTimes p k = .ok ⟨f, []⟩ := by
  induction k with
  | zero => rfl
  | succ k ih =>
      obtain ⟨hvalue, hsat⟩ := scale_of_not_grows hp h
      rw [divideTimes_succ hp ih, Traced.next, hvalue, hsat]
      rfl

end

/-! ## The fates -/

/-- Where scaling by one probability over and over leads.  Multiplying by a probability below
one makes every frequency less until it is zero, which it is after as many steps as there are
units, and stays.  Dividing by a probability `n / d` that is not zero does not fail and has two
fates.  From `f` with `f * (d - n)` at least `n` it makes the frequency greater until it
is the ceiling, after as many steps as there are units between them at the latest, and from then
on it stays and every step reports a saturation.  From any other `f` it changes nothing and
reports nothing. -/
theorem repeated_scaling_settles (f : Frequency) (p : Probability) :
    (p.num < p.den → ∀ k,
      ((f.multiplyTimes p k).value ≠ 0 →
        (f.multiplyTimes p (k + 1)).value < (f.multiplyTimes p k).value) ∧
      ((f.multiplyTimes p k).value = 0 → (f.multiplyTimes p (k + 1)).value = 0) ∧
      (f.toNat ≤ k → (f.multiplyTimes p k).value = 0)) ∧
    (∀ hp : p.num ≠ 0, p.num.toNat ≤ f.toNat * (p.den.toNat - p.num.toNat) → ∀ k,
      ∃ r r', f.divideTimes p k = .ok r ∧ f.divideTimes p (k + 1) = .ok r' ∧
        (r.value ≠ ceiling → r.value < r'.value) ∧
        (r.value = ceiling →
          r'.value = ceiling ∧ r'.reported = r.reported ++ [⟨ceiling, p.swap hp⟩]) ∧
        (ceiling.toNat - f.toNat ≤ k → r.value = ceiling)) ∧
    (p.num ≠ 0 → f.toNat * (p.den.toNat - p.num.toNat) < p.num.toNat → ∀ k,
      f.divideTimes p k = .ok ⟨f, []⟩) := by
  refine ⟨fun hlt k => ⟨mul_lt hlt, fun hzero => ?_, fun hk => ?_⟩, fun hp hgrows k => ?_,
    fun hp hstuck => divideTimes_of_not_grows hp (Nat.not_le.mpr hstuck)⟩
  · rw [value_multiplyTimes_succ, hzero, zero_mul_probability]
  · have hle := toNat_multiplyTimes_le f hlt k
    rw [← toNat_inj, toNat_zero]
    omega
  · obtain ⟨r, hr, hgrows', hle⟩ := divideTimes_of_grows hp hgrows k
    refine ⟨r, _, hr, divideTimes_succ hp hr, hgrows'.lt_value hp, fun hceil => ?_, fun hk => ?_⟩
    · rw [hceil] at hgrows'
      rw [Traced.next, hceil, hgrows'.scale_ceiling hp]
      exact ⟨rfl, rfl⟩
    · have hlt := r.value.toNat_lt
      rw [toNat_ceiling] at hk
      rw [← toNat_inj, toNat_ceiling]
      omega

/-- Three units grow under division by `3 / 4` and two do not.  Division by one in other terms
changes nothing even at the ceiling. -/
theorem repeated_scaling_settles_at_threshold :
    let p : Probability := { num := 3, den := 4 }
    let one : Probability := { num := 3, den := 3 }
    p.num < p.den ∧ ((⟨3⟩ : Frequency).multiplyTimes p 3).value = 0 ∧
      p.num ≠ 0 ∧ p.num.toNat ≤ (⟨3⟩ : Frequency).toNat * (p.den.toNat - p.num.toNat) ∧
      (∀ k, 18446744073709551612 ≤ k →
        ∃ r, (⟨3⟩ : Frequency).divideTimes p k = .ok r ∧ r.value = ceiling) ∧
      (⟨2⟩ : Frequency).toNat * (p.den.toNat - p.num.toNat) < p.num.toNat ∧
      (∀ k, (⟨2⟩ : Frequency).divideTimes p k = .ok ⟨⟨2⟩, []⟩) ∧
      ∀ k, ceiling.divideTimes one k = .ok ⟨ceiling, []⟩ := by
  intro p one
  have hlt : p.num < p.den := by decide
  have hp : p.num ≠ 0 := by decide
  have hgrows : p.num.toNat ≤ (⟨3⟩ : Frequency).toNat * (p.den.toNat - p.num.toNat) := by decide
  have hstuck : (⟨2⟩ : Frequency).toNat * (p.den.toNat - p.num.toNat) < p.num.toNat := by decide
  obtain ⟨hshrink, hrise, -⟩ := repeated_scaling_settles ⟨3⟩ p
  obtain ⟨-, -, hrest⟩ := repeated_scaling_settles ⟨2⟩ p
  obtain ⟨-, -, hfull⟩ := repeated_scaling_settles ceiling one
  refine ⟨hlt, (hshrink hlt 3).2.2 (by decide), hp, hgrows, fun k hk => ?_, hstuck,
    hrest hp hstuck, hfull (by decide) (by decide)⟩
  obtain ⟨r, -, hr, -, -, -, hceil⟩ := hrise hp hgrows k
  exact ⟨r, hr, hceil hk⟩

end BranchFlow.Frequency
