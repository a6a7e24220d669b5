import Mathlib.Algebra.Order.Group.Int
import Mathlib.Data.Nat.Log
import Mathlib.NumberTheory.Padics.PadicVal.Basic
import BranchFlow.Binary64.Value

/-!
# Rounding natural numbers to 53 bits

A natural number has one rounding to 53 significant bits, which `nearest` computes
(`roundsTo_nearest`).  Of all numbers with as many bits none is nearer (`RoundsTo.abs_sub_le`), and
the rounding keeps the order (`RoundsTo.mono`).
-/

namespace BranchFlow

/-! ## Distances -/

theorem two_mul_abs_sub_le_iff {x y u : ℕ} :
    2 * |(x : ℤ) - y| ≤ u ↔ 2 * x ≤ 2 * y + u ∧ 2 * y ≤ 2 * x + u := by
  rw [Int.abs_eq_natAbs]
  omega

theorem two_mul_abs_sub_nearest_le (num : ℕ) {den : ℕ} (h : 0 < den) :
    2 * |(num : ℤ) - (nearest num den * den : ℕ)| ≤ den :=
  two_mul_abs_sub_le_iff.mpr
    ⟨two_mul_le_two_mul_nearest_mul_add num h, two_mul_nearest_mul_le_two_mul_add num den⟩

/-- Halfway between two neighbours the even one is the nearest. -/
theorem even_nearest {num den : ℕ} (hd : 0 < den)
    (h : 2 * |(num : ℤ) - (nearest num den * den : ℕ)| = den) : Even (nearest num den) := by
  have hdm := Nat.div_add_mod num den
  have hlt := Nat.mod_lt num hd
  rw [Nat.mul_comm] at hdm
  rw [Int.abs_eq_natAbs] at h
  rw [Nat.even_iff]
  unfold nearest at h ⊢
  split at h
  next hup =>
    rw [if_pos hup]
    rw [Nat.add_mul, Nat.one_mul] at h
    omega
  next hup =>
    rw [if_neg hup]
    omega

namespace Binary64

/-! ## There is a rounding -/

/-- Every number has a rounding, the nearest multiple of its last place. -/
theorem roundsTo_nearest (x : ℕ) :
    RoundsTo x (nearest x (2 ^ (Nat.log 2 x - 52))) (Nat.log 2 x - 52) where
  lt := (Nat.lt_pow_succ_log_self Nat.one_lt_two x).trans_le
    (Nat.pow_le_pow_right Nat.two_pos (by omega))
  le := by
    rcases le_or_gt (Nat.log 2 x) 52 with hlow | hhigh
    · exact .inl (by omega)
    · have hx : x ≠ 0 := by
        rintro rfl
        simp at hhigh
      refine .inr ?_
      rw [show 52 + (Nat.log 2 x - 52) = Nat.log 2 x by omega]
      exact Nat.pow_log_le_self 2 hx
  near := two_mul_abs_sub_nearest_le x (Nat.two_pow_pos _)
  even := even_nearest (Nat.two_pow_pos _)

namespace RoundsTo

variable {x y m e m' e' : ℕ}

/-! ## Order -/

/-- A greater number has its last place at least as high. -/
theorem place_le (h : RoundsTo x m e) (h' : RoundsTo y m' e') (hxy : x ≤ y) : e ≤ e' := by
  rcases h.le with hzero | hle
  · omega
  · have hlt : 52 + e < 53 + e' :=
      (Nat.pow_lt_pow_iff_right Nat.one_lt_two).mp ((hle.trans hxy).trans_lt h'.lt)
    omega

/-- At one place rounding keeps the order, since a number halfway between two neighbours is
rounded to the even one. -/
theorem mantissa_le (h : RoundsTo x m e) (h' : RoundsTo y m' e) (hxy : x ≤ y) : m ≤ m' := by
  by_contra hlt
  have hstep : m' * 2 ^ e + 2 ^ e ≤ m * 2 ^ e := by
    rw [← Nat.succ_mul]
    exact Nat.mul_le_mul_right _ (Nat.not_le.mp hlt)
  have hnear := two_mul_abs_sub_le_iff.mp h.near
  have hnear' := two_mul_abs_sub_le_iff.mp h'.near
  -- The two numbers are one, halfway between two neighbours, which are not both even.
  have hone : m * 2 ^ e = (m' + 1) * 2 ^ e := by
    rw [Nat.succ_mul]
    omega
  have heven : Even m := h.even (by rw [Int.abs_eq_natAbs]; omega)
  have heven' : Even m' := h'.even (by rw [Int.abs_eq_natAbs]; omega)
  rw [Nat.eq_of_mul_eq_mul_right (Nat.two_pow_pos e) hone, Nat.even_add_one] at heven
  exact heven heven'

/-- A number has no other rounding. -/
theorem unique (h : RoundsTo x m e) (h' : RoundsTo x m' e') : m' = m ∧ e' = e := by
  obtain rfl : e' = e :=
    Nat.le_antisymm (h'.place_le h (Nat.le_refl x)) (h.place_le h' (Nat.le_refl x))
  exact ⟨Nat.le_antisymm (h'.mantissa_le h (Nat.le_refl x)) (h.mantissa_le h' (Nat.le_refl x)),
    rfl⟩

/-- Rounding up can carry the mantissa, but no further. -/
theorem mantissa_le_two_pow (h : RoundsTo x m e) : m ≤ 2 ^ 53 := by
  have hnear := (two_mul_abs_sub_le_iff.mp h.near).2
  have hlt := h.lt
  rw [Nat.pow_add] at hlt
  have hbound : 2 * m * 2 ^ e < (2 * 2 ^ 53 + 1) * 2 ^ e := by
    rw [Nat.add_mul, Nat.mul_assoc, Nat.mul_assoc]
    omega
  have := Nat.lt_of_mul_lt_mul_right hbound
  omega

theorem two_pow_le_mantissa (h : RoundsTo x m e) (he : e ≠ 0) : 2 ^ 52 ≤ m := by
  have hnear := (two_mul_abs_sub_le_iff.mp h.near).1
  have hle := h.le.resolve_left he
  rw [Nat.pow_add] at hle
  have hbound : 2 * 2 ^ 52 * 2 ^ e ≤ (2 * m + 1) * 2 ^ e := by
    rw [Nat.add_mul, Nat.mul_assoc, Nat.mul_assoc]
    omega
  have := Nat.le_of_mul_le_mul_right hbound (Nat.two_pow_pos e)
  omega

/-- Rounding keeps the order. -/
theorem mono (h : RoundsTo x m e) (h' : RoundsTo y m' e') (hxy : x ≤ y) :
    m * 2 ^ e ≤ m' * 2 ^ e' := by
  rcases (h.place_le h' hxy).lt_or_eq with hlt | rfl
  · calc m * 2 ^ e ≤ 2 ^ 53 * 2 ^ e := Nat.mul_le_mul_right _ h.mantissa_le_two_pow
      _ = 2 ^ (53 + e) := (Nat.pow_add ..).symm
      _ ≤ 2 ^ (52 + e') := Nat.pow_le_pow_right Nat.two_pos (by omega)
      _ = 2 ^ 52 * 2 ^ e' := Nat.pow_add ..
      _ ≤ m' * 2 ^ e' := Nat.mul_le_mul_right _ (h'.two_pow_le_mantissa (by omega))
  · exact Nat.mul_le_mul_right _ (h.mantissa_le h' hxy)

/-! ## The nearest number -/

theorem significant (h : RoundsTo x m e) : Significant 53 (m * 2 ^ e) := by
  rcases h.mantissa_le_two_pow.lt_or_eq with hlt | rfl
  · exact ⟨m, e, hlt, rfl⟩
  · exact ⟨1, 53 + e, by decide, by rw [Nat.pow_add, Nat.one_mul]⟩

/-- No multiple of the last place is nearer. -/
theorem abs_sub_le_mul (h : RoundsTo x m e) (c : ℕ) :
    |(x : ℤ) - (m * 2 ^ e : ℕ)| ≤ |(x : ℤ) - (c * 2 ^ e : ℕ)| := by
  have hnear := two_mul_abs_sub_le_iff.mp h.near
  rw [Int.abs_eq_natAbs, Int.abs_eq_natAbs]
  rcases lt_trichotomy c m with hlt | rfl | hlt
  · have hstep := Nat.mul_le_mul_right (2 ^ e) (Nat.succ_le_of_lt hlt)
    rw [Nat.succ_mul] at hstep
    omega
  · exact le_rfl
  · have hstep := Nat.mul_le_mul_right (2 ^ e) (Nat.succ_le_of_lt hlt)
    rw [Nat.succ_mul] at hstep
    omega

/-- No number with as many bits is nearer.  It is a multiple of the last place, or below all
numbers that have their last place there. -/
theorem abs_sub_le (h : RoundsTo x m e) {n : ℕ} (hn : Significant 53 n) :
    |(x : ℤ) - (m * 2 ^ e : ℕ)| ≤ |(x : ℤ) - n| := by
  obtain ⟨k, j, hk, rfl⟩ := hn
  rcases le_or_gt e j with hle | hlt
  · have hmul : k * 2 ^ j = k * 2 ^ (j - e) * 2 ^ e := by
      rw [Nat.mul_assoc, ← Nat.pow_add, Nat.sub_add_cancel hle]
    rw [hmul]
    exact h.abs_sub_le_mul _
  · have hlow : 2 ^ 52 * 2 ^ e ≤ x := by
      rw [← Nat.pow_add]
      exact h.le.resolve_left (by omega)
    have hbelow : k * 2 ^ j ≤ 2 ^ 52 * 2 ^ e := by
      calc k * 2 ^ j ≤ 2 ^ 53 * 2 ^ j := Nat.mul_le_mul_right _ hk.le
        _ = 2 ^ (53 + j) := (Nat.pow_add ..).symm
        _ ≤ 2 ^ (52 + e) := Nat.pow_le_pow_right Nat.two_pos (by omega)
        _ = 2 ^ 52 * 2 ^ e := Nat.pow_add ..
    have hnear := h.abs_sub_le_mul (2 ^ 52)
    rw [Int.abs_eq_natAbs, Int.abs_eq_natAbs] at hnear ⊢
    omega

end RoundsTo

/-! ## Exactness -/

/-- Only numbers with no more bits are their own rounding. -/
theorem RoundsTo.eq_iff {x m e : ℕ} (h : RoundsTo x m e) : m * 2 ^ e = x ↔ Significant 53 x := by
  constructor
  · intro heq
    exact heq ▸ h.significant
  · intro hx
    have hzero := h.abs_sub_le hx
    rw [sub_self, abs_zero, abs_nonpos_iff, sub_eq_zero] at hzero
    exact_mod_cast hzero.symm

/-- The significant bits of a number are those of its greatest odd factor. -/
theorem significant_iff {k n : ℕ} : Significant k n ↔ n = 0 ∨ n / 2 ^ padicValNat 2 n < 2 ^ k := by
  constructor
  · rintro ⟨m, e, hm, rfl⟩
    refine or_iff_not_imp_left.mpr fun hn => ?_
    have hdvd : e ≤ padicValNat 2 (m * 2 ^ e) :=
      (padicValNat_dvd_iff_le hn).mp (Nat.dvd_mul_left ..)
    calc m * 2 ^ e / 2 ^ padicValNat 2 (m * 2 ^ e)
        ≤ m * 2 ^ e / 2 ^ e :=
          Nat.div_le_div_left (Nat.pow_le_pow_right Nat.two_pos hdvd) (Nat.two_pow_pos e)
      _ = m := Nat.mul_div_cancel _ (Nat.two_pow_pos e)
      _ < 2 ^ k := hm
  · rintro (rfl | hn)
    · exact ⟨0, 0, Nat.two_pow_pos k, by simp⟩
    · exact ⟨_, _, hn, (Nat.div_mul_cancel pow_padicValNat_dvd).symm⟩

theorem significant_of_le {n : ℕ} (h : n ≤ 2 ^ 53) : Significant 53 n := by
  rcases h.lt_or_eq with hlt | rfl
  · exact ⟨n, 0, hlt, by rw [Nat.pow_zero, Nat.mul_one]⟩
  · exact ⟨1, 53, by decide, by rw [Nat.one_mul]⟩

end Binary64

end BranchFlow
