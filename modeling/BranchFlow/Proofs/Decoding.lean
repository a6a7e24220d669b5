import Mathlib.Algebra.Order.Field.Power
import Mathlib.Tactic.Ring
import BranchFlow.Binary64.Value

/-!
# Words of binary64 numbers

`decode_eq` reads a word without a sign as units of a place.  It does not matter whether `2 ^ 53`
units of one place are written as `2 ^ 52` units of the next, so a mantissa that a rounding carried
to `2 ^ 53` is written correctly (`decode_bits`).
-/

namespace BranchFlow.Binary64

/-! ## Words as units of a place -/

/-- Any units of any place that make up a word give its value: in the lowest place there may be
less than `2 ^ 52`, and `2 ^ 53` have carried into the exponent field. -/
theorem decode_eq {w : UInt64} {p s : ℕ} (hsign : signField w = 0)
    (hw : w.toNat = p * 2 ^ 52 + s) (hlow : p = 0 ∨ 2 ^ 52 ≤ s) (hhigh : s ≤ 2 ^ 53) :
    decode w = s * 2 ^ ((p : ℤ) - 1074) := by
  have hsize : w.toNat < 2 ^ 63 := by
    rw [signField] at hsign
    omega
  rw [decode, if_pos hsign, one_mul]
  rcases lt_or_ge s (2 ^ 52) with hs | hs
  · have hp : p = 0 := hlow.resolve_right (Nat.not_le.mpr hs)
    have hexp : exponentField w = 0 := by
      rw [exponentField]
      omega
    have hfrac : fractionField w = s := by
      rw [fractionField]
      omega
    rw [if_pos hexp, hfrac, hp]
    rfl
  · rcases hhigh.lt_or_eq with hs' | hs'
    · have hexp : exponentField w = p + 1 := by
        rw [exponentField]
        omega
      have hfrac : 2 ^ 52 + fractionField w = s := by
        rw [fractionField]
        omega
      rw [if_neg (by omega), hfrac, hexp]
      congr 2
      omega
    · have hexp : exponentField w = p + 2 := by
        rw [exponentField]
        omega
      have hfrac : 2 ^ 52 + fractionField w = 2 ^ 52 := by
        rw [fractionField]
        omega
      have hplace : ((p + 2 : ℕ) : ℤ) - 1075 = (p - 1074) + 1 := by omega
      rw [if_neg (by omega), hfrac, hexp, hs', hplace, zpow_add_one₀ two_ne_zero]
      push_cast
      ring

/-! ## Order -/

/-- Words without a sign are in the order of the numbers that they stand for, since the highest
units of a place are less than the lowest of the next one. -/
theorem decode_lt_decode {v w : UInt64} (hw : signField w = 0) (h : v < w) :
    decode v < decode w := by
  have hlt : v.toNat < w.toNat := UInt64.lt_iff_toNat_lt.mp h
  have hv : signField v = 0 := by
    rw [signField] at hw ⊢
    omega
  have hlowv := le_units v
  have hloww := le_units w
  have hhighv := units_lt v
  have hhighw := units_lt w
  rw [decode_eq hv (toNat_eq v) hlowv hhighv.le, decode_eq hw (toNat_eq w) hloww hhighw.le]
  rw [toNat_eq v, toNat_eq w] at hlt
  rcases Nat.lt_or_ge (place v) (place w) with hplace | hplace
  · calc (units v : ℚ) * 2 ^ ((place v : ℤ) - 1074)
        < 2 ^ (53 : ℤ) * 2 ^ ((place v : ℤ) - 1074) :=
          mul_lt_mul_of_pos_right (by exact_mod_cast hhighv) (zpow_pos two_pos _)
      _ = 2 ^ (53 + ((place v : ℤ) - 1074)) := (zpow_add₀ two_ne_zero ..).symm
      _ ≤ 2 ^ (52 + ((place w : ℤ) - 1074)) := zpow_le_zpow_right₀ one_le_two (by omega)
      _ = 2 ^ (52 : ℤ) * 2 ^ ((place w : ℤ) - 1074) := zpow_add₀ two_ne_zero ..
      _ ≤ units w * 2 ^ ((place w : ℤ) - 1074) :=
          mul_le_mul_of_nonneg_right
            (by exact_mod_cast hloww.resolve_left (by omega)) (zpow_nonneg zero_le_two _)
  · have heq : place v = place w := by omega
    rw [heq] at hlt ⊢
    exact mul_lt_mul_of_pos_right (by exact_mod_cast Nat.lt_of_add_lt_add_left hlt)
      (zpow_pos two_pos _)

/-- The order of words can be read off their numbers. -/
theorem le_of_decode_le {v w : UInt64} (hv : signField v = 0) (h : decode v ≤ decode w) :
    v ≤ w := by
  rw [← UInt64.not_lt]
  intro hlt
  exact absurd h (not_le.mpr (decode_lt_decode hv hlt))

/-! ## Words that are written -/

/-- A number that the format has: zero, or a mantissa of 53 bits that may have been carried, with
an exponent that leaves room for the carry. -/
structure Representable (x : Binary64) : Prop where
  mantissa : x.mantissa ≠ 0 → 2 ^ 52 ≤ x.mantissa ∧ x.mantissa ≤ 2 ^ 53
  exponent : x.mantissa ≠ 0 → -1074 ≤ x.exponent ∧ x.exponent ≤ 970

theorem bits_of_mantissa_eq_zero {x : Binary64} (h : x.mantissa = 0) : x.bits = 0 := if_pos h

namespace Representable

variable {x : Binary64} (h : Representable x)

include h

theorem toNat_bits (hx : x.mantissa ≠ 0) :
    x.bits.toNat = (x.exponent + 1074).toNat * 2 ^ 52 + x.mantissa := by
  have hmantissa := h.mantissa hx
  have hexponent := h.exponent hx
  have hlead : leadingBit = 2 ^ 52 := rfl
  rw [bits, if_neg hx, hlead, Nat.toUInt64_eq, UInt64.toNat_ofNat']
  refine Nat.mod_eq_of_lt ?_
  omega

theorem signField_bits : signField x.bits = 0 := by
  by_cases hx : x.mantissa = 0
  · rw [bits_of_mantissa_eq_zero hx]
    rfl
  · have hmantissa := h.mantissa hx
    have hexponent := h.exponent hx
    rw [signField, h.toNat_bits hx]
    omega

theorem exponentField_bits_lt : exponentField x.bits < 2047 := by
  by_cases hx : x.mantissa = 0
  · rw [bits_of_mantissa_eq_zero hx]
    decide
  · have hmantissa := h.mantissa hx
    have hexponent := h.exponent hx
    rw [exponentField, h.toNat_bits hx]
    omega

/-- A word stands for the number that it was written for. -/
theorem decode_bits : decode x.bits = x.value := by
  by_cases hx : x.mantissa = 0
  · rw [bits_of_mantissa_eq_zero hx, value, hx, Nat.cast_zero, zero_mul]
    exact (decode_eq (w := 0) (p := 0) (s := 0) rfl rfl (.inl rfl) (by decide)).trans (by simp)
  · obtain ⟨hlow, hhigh⟩ := h.mantissa hx
    have hexponent := h.exponent hx
    have hplace : ((x.exponent + 1074).toNat : ℤ) - 1074 = x.exponent := by omega
    rw [decode_eq h.signField_bits (h.toNat_bits hx) (.inr hlow) hhigh, hplace, value]

end Representable

end BranchFlow.Binary64
