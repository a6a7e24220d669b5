import Mathlib.Data.Int.Log
import Mathlib.Data.Rat.Floor
import Mathlib.Tactic.Linarith
import Mathlib.Tactic.NormNum
import Mathlib.Tactic.Ring
import BranchFlow.Binary64.Value

/-!
# Rounding as a function of the value

A quotient is given by two natural numbers, and there are many pairs for one value.  Here the
roundings are read as functions of the rational number alone.  The exponent of the last place is
computed from binary lengths, which the value does not determine, but after its correction by one it
is the binary logarithm of the quotient, less 52 (`unitExponent_eq`).
-/

namespace BranchFlow

/-! ## Nearest numbers -/

/-- The nearest number is at most half a unit away. -/
theorem abs_div_sub_nearest_le (num : ℕ) {den : ℕ} (h : 0 < den) :
    |(num : ℚ) / den - nearest num den| ≤ 1 / 2 := by
  have hden : (0 : ℚ) < den := Nat.cast_pos.mpr h
  have hbelow : (2 * num : ℚ) ≤ 2 * (nearest num den * den) + den := by
    exact_mod_cast two_mul_le_two_mul_nearest_mul_add num h
  have habove : (2 * (nearest num den * den) : ℚ) ≤ 2 * num + den := by
    exact_mod_cast two_mul_nearest_mul_le_two_mul_add num den
  rw [abs_sub_le_iff]
  constructor
  · rw [sub_le_iff_le_add, div_le_iff₀ hden]
    linarith
  · rw [sub_le_comm, le_div_iff₀ hden]
    linarith

@[simp] theorem nearest_zero (den : ℕ) : nearest 0 den = 0 := by
  simp [nearest]

@[simp] theorem nearest_one (num : ℕ) : nearest num 1 = num := by
  simp [nearest, Nat.mod_one]

/-- Rounding does not pass a whole number below the quotient. -/
theorem le_nearest {num den n : ℕ} (h : 0 < den) (hn : (n : ℚ) ≤ num / den) :
    n ≤ nearest num den := by
  rw [le_div_iff₀ (Nat.cast_pos.mpr h)] at hn
  exact ((Nat.le_div_iff_mul_le h).mpr (by exact_mod_cast hn)).trans (div_le_nearest num den)

/-- Rounding does not pass a whole number above the quotient. -/
theorem nearest_le {num den n : ℕ} (h : 0 < den) (hn : (num : ℚ) / den < n) :
    nearest num den ≤ n := by
  rw [div_lt_iff₀ (Nat.cast_pos.mpr h)] at hn
  exact (nearest_le_div_add_one num den).trans
    ((Nat.div_lt_iff_lt_mul h).mpr (by exact_mod_cast hn))

theorem nearest_mul_mul_right (num den : ℕ) {c : ℕ} (hc : 0 < c) :
    nearest (num * c) (den * c) = nearest num den := by
  have hdiv : num * c / (den * c) = num / den := Nat.mul_div_mul_right num den hc
  have hmod : 2 * (num * c % (den * c)) = 2 * (num % den) * c := by
    rw [Nat.mul_mod_mul_right, Nat.mul_assoc]
  simp only [nearest, hdiv, hmod, Nat.mul_lt_mul_right hc, Nat.mul_left_inj hc.ne']

/-- The nearest number depends on the value of a quotient alone. -/
theorem nearest_congr {num den num' den' : ℕ} (hd : 0 < den) (hd' : 0 < den')
    (h : (num : ℚ) / den = num' / den') : nearest num den = nearest num' den' := by
  have hcross : num * den' = num' * den := by
    rw [div_eq_div_iff (Nat.cast_ne_zero.mpr hd.ne') (Nat.cast_ne_zero.mpr hd'.ne')] at h
    exact_mod_cast h
  calc nearest num den
      = nearest (num * den') (den * den') := (nearest_mul_mul_right num den hd').symm
    _ = nearest (num' * den) (den' * den) := by rw [hcross, Nat.mul_comm den]
    _ = nearest num' den' := nearest_mul_mul_right num' den' hd

namespace Binary64

/-! ## The exponent of the last place -/

theorem leadingBit_eq : leadingBit = 2 ^ 52 := rfl

/-- The two shifts together divide by a power of two, whatever its sign. -/
theorem shiftLeft_div_shiftLeft (num den : ℕ) (e : ℤ) :
    ((num <<< (-e).toNat : ℕ) : ℚ) / (den <<< e.toNat : ℕ) = num / den * 2 ^ (-e) := by
  have hpow : (2 : ℚ) ^ (-e).toNat / 2 ^ e.toNat = 2 ^ (-e) := by
    rw [← zpow_natCast, ← zpow_natCast, ← zpow_sub₀ two_ne_zero]
    congr 1
    omega
  rw [Nat.shiftLeft_eq, Nat.shiftLeft_eq, Nat.cast_mul, Nat.cast_mul, mul_div_mul_comm,
    Nat.cast_pow, Nat.cast_pow, Nat.cast_ofNat, hpow]

theorem shiftLeft_pos {n : ℕ} (h : 0 < n) (k : ℕ) : 0 < n <<< k := by
  rw [Nat.shiftLeft_eq]
  exact Nat.mul_pos h (Nat.two_pow_pos k)

section

variable {num den : ℕ} (hn : 0 < num) (hd : 0 < den)

include hn hd

/-- Binary lengths give the logarithm of a quotient, or one above it. -/
theorem log_div_bounds :
    (num.log2 : ℤ) - den.log2 - 1 ≤ Int.log 2 ((num : ℚ) / den) ∧
      Int.log 2 ((num : ℚ) / den) ≤ num.log2 - den.log2 := by
  have hn0 : (0 : ℚ) < num := Nat.cast_pos.mpr hn
  have hd0 : (0 : ℚ) < den := Nat.cast_pos.mpr hd
  have hnum_le : (2 : ℚ) ^ (num.log2 : ℤ) ≤ num := by
    exact_mod_cast Nat.log2_self_le hn.ne'
  have hnum_lt : (num : ℚ) < 2 ^ (num.log2 + 1 : ℤ) := by
    exact_mod_cast Nat.lt_log2_self
  have hden_le : (2 : ℚ) ^ (den.log2 : ℤ) ≤ den := by
    exact_mod_cast Nat.log2_self_le hd.ne'
  have hden_lt : (den : ℚ) < 2 ^ (den.log2 + 1 : ℤ) := by
    exact_mod_cast Nat.lt_log2_self
  constructor
  · rw [← Int.zpow_le_iff_le_log one_lt_two (div_pos hn0 hd0), le_div_iff₀ hd0]
    calc ((2 : ℕ) : ℚ) ^ ((num.log2 : ℤ) - den.log2 - 1) * den
        ≤ 2 ^ ((num.log2 : ℤ) - den.log2 - 1) * 2 ^ (den.log2 + 1 : ℤ) := by
          rw [Nat.cast_ofNat]
          exact mul_le_mul_of_nonneg_left hden_lt.le (zpow_nonneg zero_le_two _)
      _ = 2 ^ (num.log2 : ℤ) := by
          rw [← zpow_add₀ two_ne_zero]
          congr 1
          omega
      _ ≤ num := hnum_le
  · rw [← Int.lt_add_one_iff, ← Int.lt_zpow_iff_log_lt one_lt_two (div_pos hn0 hd0),
      div_lt_iff₀ hd0]
    calc (num : ℚ) < 2 ^ (num.log2 + 1 : ℤ) := hnum_lt
      _ = 2 ^ ((num.log2 : ℤ) - den.log2 + 1) * 2 ^ (den.log2 : ℤ) := by
          rw [← zpow_add₀ two_ne_zero]
          congr 1
          omega
      _ ≤ ((2 : ℕ) : ℚ) ^ ((num.log2 : ℤ) - den.log2 + 1) * den := by
          rw [Nat.cast_ofNat]
          exact mul_le_mul_of_nonneg_left hden_le (zpow_nonneg zero_le_two _)

omit hn in
/-- The shifted quotient is compared with `2 ^ 52`, hence the quotient with `2 ^ (52 + e)`. -/
theorem shiftLeft_lt_leadingBit_mul_iff (hpos : (0 : ℚ) < num / den) (e : ℤ) :
    num <<< (-e).toNat < leadingBit * (den <<< e.toNat) ↔
      Int.log 2 ((num : ℚ) / den) < 52 + e := by
  have hshift : (0 : ℚ) < (den <<< e.toNat : ℕ) := Nat.cast_pos.mpr (shiftLeft_pos hd _)
  have hpow : (leadingBit : ℚ) * 2 ^ e = 2 ^ (52 + e) := by
    rw [leadingBit_eq, Nat.cast_pow, Nat.cast_ofNat, ← zpow_natCast, ← zpow_add₀ two_ne_zero]
    rfl
  rw [← Int.lt_zpow_iff_log_lt one_lt_two hpos, Nat.cast_ofNat, ← hpow, ← Nat.cast_lt (α := ℚ),
    Nat.cast_mul, ← div_lt_iff₀ hshift, shiftLeft_div_shiftLeft, zpow_neg, ← div_eq_mul_inv,
    div_lt_iff₀ (zpow_pos two_pos e)]

/-- The exponent of the last place is the binary logarithm of the quotient, less 52. -/
theorem unitExponent_eq : unitExponent num den = Int.log 2 ((num : ℚ) / den) - 52 := by
  have hpos : (0 : ℚ) < num / den := div_pos (Nat.cast_pos.mpr hn) (Nat.cast_pos.mpr hd)
  obtain ⟨hlow, hhigh⟩ := log_div_bounds hn hd
  have hshifted := shiftLeft_lt_leadingBit_mul_iff hd hpos ((num.log2 : ℤ) - den.log2 - 52)
  rw [unitExponent]
  split
  next hlt =>
    have := hshifted.mp hlt
    omega
  next hlt =>
    have := mt hshifted.mpr hlt
    omega

/-- The unit of the last place is not above that of 53 bits which the quotient has. -/
theorem unitExponent_le {m : ℕ} {k : ℤ} (hm : m < 2 ^ 53) (h : (num : ℚ) / den = m * 2 ^ k) :
    unitExponent num den ≤ k := by
  have hpos : (0 : ℚ) < num / den := div_pos (Nat.cast_pos.mpr hn) (Nat.cast_pos.mpr hd)
  have hlt : (num : ℚ) / den < ((2 : ℕ) : ℚ) ^ (53 + k) := by
    rw [h, Nat.cast_ofNat, zpow_add₀ two_ne_zero]
    exact mul_lt_mul_of_pos_right (by exact_mod_cast hm) (zpow_pos two_pos k)
  have hlog := (Int.lt_zpow_iff_log_lt one_lt_two hpos).mp hlt
  rw [unitExponent_eq hn hd]
  omega

/-- A quotient has at least `2 ^ 52` units of its last place, and less than `2 ^ 53`. -/
theorem div_mul_unit_bounds :
    2 ^ 52 ≤ (num : ℚ) / den * 2 ^ (-unitExponent num den) ∧
      (num : ℚ) / den * 2 ^ (-unitExponent num den) < 2 ^ 53 := by
  have hpos : (0 : ℚ) < num / den := div_pos (Nat.cast_pos.mpr hn) (Nat.cast_pos.mpr hd)
  have hle := Int.zpow_log_le_self (R := ℚ) one_lt_two hpos
  have hlt := Int.lt_zpow_succ_log_self (R := ℚ) one_lt_two ((num : ℚ) / den)
  rw [Nat.cast_ofNat] at hle hlt
  rw [unitExponent_eq hn hd]
  generalize Int.log 2 ((num : ℚ) / den) = l at *
  constructor
  · calc (2 : ℚ) ^ 52 = 2 ^ l * 2 ^ (-(l - 52)) := by
          rw [← zpow_add₀ two_ne_zero, show l + -(l - 52) = (52 : ℕ) by omega, zpow_natCast]
      _ ≤ num / den * 2 ^ (-(l - 52)) := mul_le_mul_of_nonneg_right hle (zpow_nonneg zero_le_two _)
  · calc (num : ℚ) / den * 2 ^ (-(l - 52)) < 2 ^ (l + 1) * 2 ^ (-(l - 52)) :=
          mul_lt_mul_of_pos_right hlt (zpow_pos two_pos _)
      _ = 2 ^ 53 := by
          rw [← zpow_add₀ two_ne_zero, show l + 1 + -(l - 52) = (53 : ℕ) by omega, zpow_natCast]

end

/-! ## Numbers of 53 bits -/

theorem num_div_den (x : Binary64) : (x.num : ℚ) / x.den = x.value := by
  have hone := shiftLeft_div_shiftLeft x.mantissa 1 (-x.exponent)
  rw [neg_neg, Nat.cast_one, div_one] at hone
  exact hone

theorem value_ofRatio (num den : ℕ) :
    (ofRatio num den).value
      = nearest (num <<< (-unitExponent num den).toNat) (den <<< (unitExponent num den).toNat)
        * 2 ^ unitExponent num den := rfl

@[simp] theorem value_ofRatio_zero (den : ℕ) : (ofRatio 0 den).value = 0 := by
  rw [value_ofRatio, Nat.zero_shiftLeft, nearest_zero, Nat.cast_zero, zero_mul]

/-- The rounded quotient depends on the value of a quotient alone. -/
theorem value_ofRatio_congr {num den num' den' : ℕ} (hd : 0 < den) (hd' : 0 < den')
    (h : (num : ℚ) / den = num' / den') :
    (ofRatio num den).value = (ofRatio num' den').value := by
  rcases Nat.eq_zero_or_pos num with rfl | hn
  · have hzero : num' = 0 := by
      rw [Nat.cast_zero, zero_div, eq_comm, div_eq_zero_iff] at h
      exact_mod_cast h.resolve_right (Nat.cast_ne_zero.mpr hd'.ne')
    rw [hzero, value_ofRatio_zero, value_ofRatio_zero]
  · have hn' : 0 < num' := by
      have hpos : (0 : ℚ) < num' / den' := h ▸ div_pos (Nat.cast_pos.mpr hn) (Nat.cast_pos.mpr hd)
      rw [div_pos_iff_of_pos_right (Nat.cast_pos.mpr hd')] at hpos
      exact_mod_cast hpos
    have hexp : unitExponent num den = unitExponent num' den' := by
      rw [unitExponent_eq hn hd, unitExponent_eq hn' hd', h]
    rw [value_ofRatio, value_ofRatio, hexp]
    congr 2
    refine nearest_congr (shiftLeft_pos hd _) (shiftLeft_pos hd' _) ?_
    rw [shiftLeft_div_shiftLeft, shiftLeft_div_shiftLeft, h]

/-- The error is at most half a unit of the last place. -/
theorem abs_div_sub_value_ofRatio_le_unit (num : ℕ) {den : ℕ} (hd : 0 < den) :
    |(num : ℚ) / den - (ofRatio num den).value| ≤ 2 ^ unitExponent num den / 2 := by
  rw [value_ofRatio]
  have hnearest := abs_div_sub_nearest_le (num <<< (-unitExponent num den).toNat)
    (shiftLeft_pos hd (unitExponent num den).toNat)
  rw [shiftLeft_div_shiftLeft] at hnearest
  generalize unitExponent num den = e at *
  generalize nearest _ _ = m at *
  have hunit : (0 : ℚ) < 2 ^ e := zpow_pos two_pos e
  calc |(num : ℚ) / den - m * 2 ^ e|
      = |((num : ℚ) / den * 2 ^ (-e) - m) * 2 ^ e| := by
        rw [sub_mul, mul_assoc, ← zpow_add₀ two_ne_zero, neg_add_cancel, zpow_zero, mul_one]
    _ = |(num : ℚ) / den * 2 ^ (-e) - m| * 2 ^ e := by rw [abs_mul, abs_of_pos hunit]
    _ ≤ 1 / 2 * 2 ^ e := mul_le_mul_of_nonneg_right hnearest hunit.le
    _ = 2 ^ e / 2 := by ring

/-- The error is at most one part in `2 ^ 53`. -/
theorem abs_div_sub_value_ofRatio_le (num : ℕ) {den : ℕ} (hd : 0 < den) :
    |(num : ℚ) / den - (ofRatio num den).value| ≤ num / den / 2 ^ 53 := by
  rcases Nat.eq_zero_or_pos num with rfl | hn
  · simp
  · have hpos : (0 : ℚ) < num / den := div_pos (Nat.cast_pos.mpr hn) (Nat.cast_pos.mpr hd)
    have hlog := Int.zpow_log_le_self (R := ℚ) one_lt_two hpos
    rw [Nat.cast_ofNat] at hlog
    refine (abs_div_sub_value_ofRatio_le_unit num hd).trans ?_
    rw [unitExponent_eq hn hd, zpow_sub₀ two_ne_zero]
    generalize (2 : ℚ) ^ Int.log 2 ((num : ℚ) / den) = u at *
    norm_num
    linarith

/-- The mantissa of a quotient has 53 bits, or has been carried. -/
theorem mantissa_ofRatio_bounds {num den : ℕ} (hn : 0 < num) (hd : 0 < den) :
    2 ^ 52 ≤ (ofRatio num den).mantissa ∧ (ofRatio num den).mantissa ≤ 2 ^ 53 := by
  obtain ⟨hle, hlt⟩ := div_mul_unit_bounds hn hd
  rw [← shiftLeft_div_shiftLeft] at hle hlt
  exact ⟨le_nearest (shiftLeft_pos hd _) (by exact_mod_cast hle),
    nearest_le (shiftLeft_pos hd _) (by exact_mod_cast hlt)⟩

/-! ## Exact quotients -/

/-- A quotient with no more than 53 bits is its own rounding. -/
theorem value_ofRatio_of_eq {num den m : ℕ} {k : ℤ} (hd : 0 < den) (hm : m < 2 ^ 53)
    (h : (num : ℚ) / den = m * 2 ^ k) : (ofRatio num den).value = m * 2 ^ k := by
  rcases Nat.eq_zero_or_pos num with rfl | hn
  · rw [value_ofRatio_zero, ← h, Nat.cast_zero, zero_div]
  · obtain ⟨t, ht⟩ := Int.le.dest (unitExponent_le hn hd hm h)
    rw [value_ofRatio]
    generalize unitExponent num den = e at *
    have hwhole : nearest (num <<< (-e).toNat) (den <<< e.toNat) = m * 2 ^ t := by
      rw [← nearest_one (m * 2 ^ t)]
      refine nearest_congr (shiftLeft_pos hd _) Nat.one_pos ?_
      rw [shiftLeft_div_shiftLeft, h, ← ht, mul_assoc, ← zpow_add₀ two_ne_zero,
        add_neg_cancel_comm, zpow_natCast, Nat.cast_one, div_one, Nat.cast_mul, Nat.cast_pow,
        Nat.cast_ofNat]
    rw [hwhole, ← ht, add_comm, zpow_add₀ two_ne_zero, zpow_natCast, Nat.cast_mul, Nat.cast_pow,
      Nat.cast_ofNat, mul_assoc]

/-- The quotient of two numbers is that of their values. -/
theorem num_mul_den_div_den_mul_num (x y : Binary64) :
    ((x.num * y.den : ℕ) : ℚ) / (x.den * y.num : ℕ) = x.value / y.value := by
  rw [← num_div_den, ← num_div_den, div_div_div_eq, Nat.cast_mul, Nat.cast_mul]

end Binary64

end BranchFlow
