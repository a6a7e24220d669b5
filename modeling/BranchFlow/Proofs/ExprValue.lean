import Mathlib.Algebra.Order.Field.Basic
import BranchFlow.Expr
import BranchFlow.Proofs.Scale
import BranchFlow.Proofs.Sum

/-!
# Values of expressions

Floors and ceilings turn no order around, so of two expressions of one shape the one with the lesser
frequencies, the lesser factors and the greater divisors has the lesser value (`value_mono`). They
also only take away, so a value is never above the exact one (`value_le_exact`).
-/

namespace BranchFlow

/-! ## One scaling -/

namespace Frequency

/-- Scaling does not overtake the exact number. -/
theorem scale_value_le {f : Frequency} {x : ℚ} (hx : (f.toNat : ℚ) ≤ x) (r : Ratio) :
    ((f.scale r).value.toNat : ℚ) ≤ x * r.num.toNat / r.den.toNat := by
  have hden : (0 : ℚ) < r.den.toNat := Nat.cast_pos.mpr r.den_pos
  have haccount : (f.scale r).value.toNat * r.den.toNat ≤ f.toNat * r.num.toNat :=
    Nat.le_of_add_right_le (f.value_mul_den_add_remainder_le r)
  rw [le_div_iff₀ hden]
  calc ((f.scale r).value.toNat : ℚ) * r.den.toNat
      ≤ f.toNat * r.num.toNat := by exact_mod_cast haccount
    _ ≤ x * r.num.toNat := mul_le_mul_of_nonneg_right hx (Nat.cast_nonneg _)

/-- Scaling without a remainder keeps up with the exact number. -/
theorem scale_value_eq {f : Frequency} {x : ℚ} (hx : (f.toNat : ℚ) = x) {r : Ratio}
    (h : (f.scale r).remainder = 0) :
    ((f.scale r).value.toNat : ℚ) = x * r.num.toNat / r.den.toNat := by
  have hden : (r.den.toNat : ℚ) ≠ 0 := Nat.cast_ne_zero.mpr (Nat.ne_of_gt r.den_pos)
  have hunsaturated : (f.scale r).remainder ≠ r.den := by
    rw [h]
    exact Ne.symm r.den_ne_zero
  have haccount : (f.scale r).value.toNat * r.den.toNat = f.toNat * r.num.toNat := by
    rw [← value_mul_den_add_remainder hunsaturated, h]
    rfl
  rw [eq_div_iff hden, ← hx]
  exact_mod_cast haccount

end Frequency

namespace Expr

open Frequency

/-! ## Order -/

/-- A value does not grow if no given frequency and no factor does, and no divisor
shrinks.  Factors and divisors are compared by value, whatever their terms. -/
theorem value_mono {a b : Expr} (h : Below a b) : a.value ≤ b.value := by
  induction h using Below.rec
    (motive_2 := fun es fs _ => total (values es) ≤ total (values fs)) with
  | given hfg => exact hfg
  | add _ _ iha ihb => exact add_le_add iha ihb
  | sum _ ih => exact sum_le_sum ih
  | multiply _ hpq ih => exact scale_value_mono ih (Probability.le_iff.mp hpq)
  | @divide _ _ _ _ hp hq _ hqp ih =>
      exact scale_value_mono ih ((Probability.cross_swap_le_iff hq hp).mpr hqp)
  | nil => exact Nat.le_refl _
  | cons _ _ iha ihs =>
      have := le_iff_toNat_le.mp iha
      rw [values, values, total_cons, total_cons]
      omega

/-- The factors are equal in other terms.  The second division saturates, and so does the
sum around it. -/
theorem value_mono_of_saturated :
    let a : Expr := .sum [.divide (.multiply (.given ⟨9⟩) { num := 1, den := 3 })
      { num := 1, den := 2 } (by decide), .given ⟨1⟩]
    let b : Expr := .sum [.divide (.multiply (.given .ceiling) { num := 2, den := 6 })
      { num := 1, den := 4 } (by decide), .given ⟨1⟩]
    Below a b ∧ a.value ≤ b.value ∧ a.value = ⟨7⟩ ∧ b.value = .ceiling := by
  intro a b
  have hgiven : Below (.given ⟨9⟩) (.given .ceiling) := .given (by decide)
  have hbelow : Below a b :=
    .sum (.cons (.divide (.multiply hgiven (by decide)) (by decide))
      (.cons (.given (by decide)) .nil))
  exact ⟨hbelow, value_mono hbelow, by decide +kernel, by decide +kernel⟩

/-! ## Exact values -/

/-- The value of an expression is at most its exact value. -/
theorem toNat_value_le (e : Expr) : (e.value.toNat : ℚ) ≤ e.exact := by
  induction e using Expr.rec
    (motive_2 := fun es => (total (values es) : ℚ) ≤ exactSum es) with
  | given f => exact le_refl _
  | add a b iha ihb =>
      calc ((a.value + b.value).toNat : ℚ)
          ≤ a.value.toNat + b.value.toNat := by exact_mod_cast toNat_add_le a.value b.value
        _ ≤ a.exact + b.exact := add_le_add iha ihb
  | sum es ih =>
      calc ((Frequency.sum (values es)).toNat : ℚ)
          ≤ total (values es) := by exact_mod_cast toNat_sum_le (values es)
        _ ≤ exactSum es := ih
  | scale a r ih => exact scale_value_le ih r
  | multiply a p ih => exact scale_value_le ih p.toRatio
  | divide a p h ih => exact scale_value_le ih (p.swap h)
  | nil => exact le_of_eq Nat.cast_zero
  | cons e es ihe ihes =>
      rw [values, total_cons, Nat.cast_add]
      exact add_le_add ihe ihes

/-- The value of a lossless expression is its exact value.  That every addition of a sum fits is
needed only for the last one, which is the whole sum. -/
theorem toNat_value_eq (e : Expr) (h : e.Lossless) : (e.value.toNat : ℚ) = e.exact := by
  induction e using Expr.rec
    (motive_2 := fun es => AllLossless es → (total (values es) : ℚ) = exactSum es) with
  | given f => rfl
  | add a b iha ihb =>
      obtain ⟨ha, hb, hfit⟩ := h
      have hadd : (a.value + b.value).toNat = a.value.toNat + b.value.toNat := by
        rw [toNat_add]
        omega
      rw [value, hadd, Nat.cast_add, iha ha, ihb hb]
      rfl
  | sum es ih =>
      obtain ⟨hes, hfit⟩ := h
      rw [additionsFit_iff, toNat_zero, Nat.zero_add] at hfit
      rw [value, toNat_sum_of_lt hfit]
      exact ih hes
  | scale a r ih => exact scale_value_eq (ih h.1) h.2
  | multiply a p ih => exact scale_value_eq (ih h.1) h.2
  | divide a p hp ih => exact scale_value_eq (ih h.1) h.2
  | nil => exact Nat.cast_zero
  | cons e es ihe ihes h =>
      rw [values, total_cons, Nat.cast_add, ihe h.1, ihes h.2]
      rfl

/-- No computation overestimates.  The value of an expression is at most the rational
number that it stands for.  It is equal if every scaling on the way returns the
remainder zero and no sum of two computed values is above the ceiling. -/
theorem value_le_exact (e : Expr) :
    (e.value.toNat : ℚ) ≤ e.exact ∧ (e.Lossless → (e.value.toNat : ℚ) = e.exact) :=
  ⟨e.toNat_value_le, e.toNat_value_eq⟩

/-- The greatest frequency is divisible by three, so nothing is lost on the way back to it. -/
theorem value_eq_exact_at_ceiling :
    let third : Probability := { num := 1, den := 3 }
    let e : Expr := .sum [.divide (.multiply (.given .ceiling) third) third (by decide),
      .add (.given 0) (.scale (.given ⟨9⟩) { num := 0, den := 7 })]
    e.Lossless ∧ (e.value.toNat : ℚ) = e.exact ∧ e.value = .ceiling := by
  intro third e
  have hlossless : e.Lossless := by
    refine ⟨⟨⟨⟨trivial, ?_⟩, ?_⟩, ⟨trivial, ⟨trivial, ?_⟩, ?_⟩, trivial⟩, ?_, ?_, trivial⟩
    all_goals decide +kernel
  exact ⟨hlossless, (value_le_exact e).2 hlossless, by decide +kernel⟩

end Expr

end BranchFlow
