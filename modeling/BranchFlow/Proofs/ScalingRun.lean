import Mathlib.Algebra.BigOperators.Ring.Finset
import Mathlib.Algebra.Order.BigOperators.GroupWithZero.List
import Mathlib.Tactic.Ring
import BranchFlow.Frequency.Chain
import BranchFlow.Proofs.Scale

/-!
# Remainders account for a run of scalings

A run of scalings stands for a multiplication by the product of the numerators and a division by the
product of the denominators.  `lost` brings the values that it returns to one scale.  The invariant
is that the result times the denominators, together with what is lost, is at most the start times
the numerators, and equal to it as long as nothing saturates.
-/

namespace BranchFlow.Frequency

open Ratio

theorem scaleAll_cons (f : Frequency) (r : Ratio) (rs : List Ratio) :
    f.scaleAll (r :: rs) = (f.scale r).value.scaleAll rs := rfl

theorem length_returned (f : Frequency) (rs : List Ratio) :
    (f.returned rs).length = rs.length := by
  induction rs generalizing f with
  | nil => rfl
  | cons r rs ih => rw [returned, List.length_cons, ih, List.length_cons]

/-! ## What a run loses -/

/-- The returned values of a run at the scale of its result: each is multiplied by the
denominators before it and the numerators after it. -/
def lost : Frequency → List Ratio → Nat
  | _, [] => 0
  | f, r :: rs =>
      (f.scale r).remainder.toNat * numProd rs + r.den.toNat * lost (f.scale r).value rs

/-- `lost` as a sum over the scalings of a run. -/
theorem lost_eq_sum (f : Frequency) (rs : List Ratio) :
    f.lost rs = ∑ i ∈ Finset.range rs.length,
      ((f.returned rs).getD i 0).toNat * denProd (rs.take i) * numProd (rs.drop (i + 1)) := by
  induction rs generalizing f with
  | nil => rfl
  | cons r rs ih =>
      rw [lost, ih, List.length_cons, Finset.sum_range_succ', Finset.mul_sum, Nat.add_comm]
      congr 1
      · refine Finset.sum_congr rfl fun i _ => ?_
        simp only [returned, List.getD_cons_succ, List.take_succ_cons, List.drop_succ_cons,
          denProd_cons]
        ring
      · simp only [returned, List.getD_cons_zero, List.take_zero, List.drop_succ_cons, List.drop_zero]
        exact congrArg (· * _) (Nat.mul_one _).symm

theorem numProd_pos {rs : List Ratio} (h : ∀ r ∈ rs, 1 ≤ r.num.toNat) : 0 < numProd rs :=
  List.prod_pos (List.forall_mem_map.mpr h)

/-- Without a numerator that is zero, nothing is lost if and only if only zeros are returned. -/
theorem lost_eq_zero_iff (f : Frequency) {rs : List Ratio} (h : ∀ r ∈ rs, 1 ≤ r.num.toNat) :
    f.lost rs = 0 ↔ ∀ x ∈ f.returned rs, x = 0 := by
  induction rs generalizing f with
  | nil => simp [lost, returned]
  | cons r rs ih =>
      obtain ⟨hr, hrs⟩ := List.forall_mem_cons.mp h
      have hnum := Nat.ne_of_gt (numProd_pos hrs)
      have hden := Nat.ne_of_gt r.den_pos
      rw [lost, returned, List.forall_mem_cons, ← ih _ hrs, Nat.add_eq_zero_iff,
        Nat.mul_eq_zero, Nat.mul_eq_zero, or_iff_left hnum, or_iff_right hden]
      exact and_congr_left' (UInt32.toNat_inj (b := 0))

/-! ## The invariant of a run -/

/-- The account of a run from that of the run after its first scaling. -/
theorem scaleAll_mul_denProd_add_lost_cons (f : Frequency) (r : Ratio) (rs : List Ratio) :
    (f.scaleAll (r :: rs)).toNat * denProd (r :: rs) + f.lost (r :: rs)
      = r.den.toNat * (((f.scale r).value.scaleAll rs).toNat * denProd rs
          + (f.scale r).value.lost rs)
        + (f.scale r).remainder.toNat * numProd rs := by
  rw [scaleAll_cons, denProd_cons, lost]
  ring

/-- What a run ends with and what it loses are not above what it starts with. -/
theorem scaleAll_mul_denProd_add_lost_le (f : Frequency) (rs : List Ratio) :
    (f.scaleAll rs).toNat * denProd rs + f.lost rs ≤ f.toNat * numProd rs := by
  induction rs generalizing f with
  | nil => simp [scaleAll, denProd, numProd, lost]
  | cons r rs ih =>
      have hstep := value_mul_den_add_remainder_le f r
      have hrest := ih (f.scale r).value
      rw [scaleAll_mul_denProd_add_lost_cons, numProd_cons]
      generalize (f.scale r).value = g at *
      generalize (f.scale r).remainder.toNat = x at *
      calc r.den.toNat * ((g.scaleAll rs).toNat * denProd rs + g.lost rs) + x * numProd rs
          ≤ r.den.toNat * (g.toNat * numProd rs) + x * numProd rs := by gcongr
        _ = (g.toNat * r.den.toNat + x) * numProd rs := by ring
        _ ≤ f.toNat * r.num.toNat * numProd rs := Nat.mul_le_mul_right _ hstep
        _ = f.toNat * (r.num.toNat * numProd rs) := Nat.mul_assoc ..

/-- They are equal to it as long as nothing saturates. -/
theorem scaleAll_mul_denProd_add_lost (f : Frequency) (rs : List Ratio)
    (h : List.Forall₂ (fun x r => x ≠ r.den) (f.returned rs) rs) :
    (f.scaleAll rs).toNat * denProd rs + f.lost rs = f.toNat * numProd rs := by
  induction rs generalizing f with
  | nil => simp [scaleAll, denProd, numProd, lost]
  | cons r rs ih =>
      cases h with
      | cons hr hrs =>
          have hstep := value_mul_den_add_remainder hr
          have hrest := ih _ hrs
          rw [scaleAll_mul_denProd_add_lost_cons, numProd_cons, hrest, ← Nat.mul_assoc f.toNat, ← hstep]
          ring

/-- A scaling that returns zero does not saturate. -/
theorem forall₂_ne_den_of_eq_zero (f : Frequency) {rs : List Ratio}
    (h : ∀ x ∈ f.returned rs, x = 0) :
    List.Forall₂ (fun x r => x ≠ r.den) (f.returned rs) rs := by
  induction rs generalizing f with
  | nil => exact .nil
  | cons r rs ih =>
      rw [returned, List.forall_mem_cons] at h
      obtain ⟨hr, hrs⟩ := h
      refine .cons ?_ (ih _ hrs)
      rw [hr]
      exact Ne.symm r.den_ne_zero

/-! ## Accounting -/

/-- The values that a run of scalings returns, one for each, account for it.  The
result is never too great, also when scalings saturate.  If none returns its
denominator, the returned values are exactly what is missing.  If no numerator is zero,
the run is exact if and only if all of them are zero. -/
theorem scaleAll_accounting (f : Frequency) (rs : List Ratio) :
    (f.returned rs).length = rs.length ∧
    (f.scaleAll rs).toNat * denProd rs ≤ f.toNat * numProd rs ∧
    (List.Forall₂ (fun x r => x ≠ r.den) (f.returned rs) rs →
      f.toNat * numProd rs = (f.scaleAll rs).toNat * denProd rs
        + ∑ i ∈ Finset.range rs.length,
          ((f.returned rs).getD i 0).toNat * denProd (rs.take i) * numProd (rs.drop (i + 1))) ∧
    ((∀ r ∈ rs, 1 ≤ r.num.toNat) →
      ((f.scaleAll rs).toNat * denProd rs = f.toNat * numProd rs ↔
        ∀ x ∈ f.returned rs, x = 0)) := by
  have hle := f.scaleAll_mul_denProd_add_lost_le rs
  refine ⟨f.length_returned rs, by omega, fun h => ?_, fun hnum => ?_⟩
  · rw [← lost_eq_sum, f.scaleAll_mul_denProd_add_lost rs h]
  · constructor
    · intro heq
      exact (f.lost_eq_zero_iff hnum).mp (by omega)
    · intro hzero
      have hlost := (f.lost_eq_zero_iff hnum).mpr hzero
      rw [← f.scaleAll_mul_denProd_add_lost rs (f.forall₂_ne_den_of_eq_zero hzero), hlost]
      rfl

/-- The first run does not saturate, and its one remainder is what is missing.  The second one
saturates, and its returned values show that it is not exact. -/
theorem scaleAll_accounting_of_saturated :
    let f : Frequency := ⟨10⟩
    let rs : List Ratio := [{ num := 3, den := 4 }, { num := 5, den := 7 }]
    let g : Frequency := ⟨9223372036854775808⟩
    let qs : List Ratio := [{ num := 4, den := 1 }, { num := 1, den := 4 }]
    List.Forall₂ (fun x r => x ≠ r.den) (f.returned rs) rs ∧
      f.toNat * numProd rs = (f.scaleAll rs).toNat * denProd rs + 2 * 5 ∧
      (∀ r ∈ qs, 1 ≤ r.num.toNat) ∧ g.returned qs = [1, 3] ∧
      (g.scaleAll qs).toNat * denProd qs ≠ g.toNat * numProd qs := by
  intro f rs g qs
  have hfits : List.Forall₂ (fun x r => x ≠ r.den) (f.returned rs) rs := by decide +kernel
  have hnum : ∀ r ∈ qs, 1 ≤ r.num.toNat := by decide
  have hreturned : g.returned qs = [1, 3] := by decide +kernel
  obtain ⟨-, -, hmissing, -⟩ := scaleAll_accounting f rs
  obtain ⟨-, -, -, hexact⟩ := scaleAll_accounting g qs
  refine ⟨hfits, (hmissing hfits).trans (by decide +kernel), hnum, hreturned, ?_⟩
  rw [Ne, hexact hnum, hreturned]
  simp

end BranchFlow.Frequency
