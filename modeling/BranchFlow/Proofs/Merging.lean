import Mathlib.Algebra.Order.BigOperators.Group.List
import BranchFlow.Frequency.SideBySide
import BranchFlow.Proofs.ScaleContract
import BranchFlow.Proofs.Sum

/-!
# Merging before or after scaling

Frequencies that meet in one block can be added and then scaled, or scaled and then added.  If none
of the scalings saturates, the two agree up to what the remainders carry
(`total_values_mul_den_add_remainderSum`).  Where one does saturate, the sum of the values is at the
ceiling, so scaling first loses at most the carry.  Adding first can lose any amount.
-/

namespace BranchFlow.Frequency

open Scaled

variable {fs : List Frequency} {r : Ratio}

/-! ## Values and remainders of scalings that divide -/

section

variable (h : ∀ f ∈ fs, (f.scale r).Divides f r)

include h

/-- Values and remainders of all scalings account for the exact sum. -/
theorem total_values_mul_den_add_remainderSum :
    r.den.toNat * total (values (scaleEach fs r)) + remainderSum (scaleEach fs r)
      = total fs * r.num.toNat := by
  induction fs with
  | nil => exact (Nat.zero_mul _).symm
  | cons f fs ih =>
      obtain ⟨hf, hfs⟩ := List.forall_mem_cons.mp h
      have hproduct := hf.product
      rw [Nat.mul_comm (f.scale r).value.toNat] at hproduct
      rw [scaleEach_cons, values_cons, remainderSum_cons, total_cons, total_cons, Nat.add_mul,
        ← ih hfs, hproduct, Nat.mul_add, Nat.add_add_add_comm]

theorem total_mul_num_div_den :
    total fs * r.num.toNat / r.den.toNat
      = total (values (scaleEach fs r)) + remainderSum (scaleEach fs r) / r.den.toNat := by
  rw [← total_values_mul_den_add_remainderSum h, Nat.mul_add_div r.den_pos]

theorem total_mul_num_mod_den :
    total fs * r.num.toNat % r.den.toNat = remainderSum (scaleEach fs r) % r.den.toNat := by
  rw [← total_values_mul_den_add_remainderSum h, Nat.mul_add_mod]

theorem remainderSum_add_length_le :
    remainderSum (scaleEach fs r) + fs.length ≤ r.den.toNat * fs.length := by
  induction fs with
  | nil => exact Nat.le_refl 0
  | cons f fs ih =>
      obtain ⟨hf, hfs⟩ := List.forall_mem_cons.mp h
      have hrest := ih hfs
      have hrem := UInt32.lt_iff_toNat_lt.mp hf.remainder_lt
      rw [scaleEach_cons, remainderSum_cons, List.length_cons, Nat.mul_add_one]
      omega

/-- The remainders carry at most one unit for each frequency but one. -/
theorem remainderSum_div_le :
    remainderSum (scaleEach fs r) / r.den.toNat ≤ fs.length - 1 := by
  have hle := remainderSum_add_length_le h
  cases fs with
  | nil => exact Nat.le_of_eq (Nat.zero_div _)
  | cons f fs =>
      refine Nat.le_of_lt_succ ((Nat.div_lt_iff_lt_mul r.den_pos).mpr ?_)
      rw [Nat.mul_comm]
      exact Nat.lt_of_lt_of_le (Nat.lt_add_of_pos_right (Nat.succ_pos _)) hle

end

/-! ## Where saturation strikes -/

/-- If the scaling of an exact sum does not saturate, no scaling of a term does. -/
theorem divides_of_mem (hfit : total fs < UInt64.size)
    (hsum : ((sum fs).scale r).Divides (sum fs) r) {f : Frequency} (hf : f ∈ fs) :
    (f.scale r).Divides f r := by
  have hle : f.toNat ≤ (sum fs).toNat := by
    rw [toNat_sum_of_lt hfit]
    exact List.le_sum_of_mem (List.mem_map_of_mem hf)
  refine divides_of_lt ?_
  calc f.toNat * r.num.toNat / r.den.toNat
      ≤ (sum fs).toNat * r.num.toNat / r.den.toNat :=
        Nat.div_le_div_right (Nat.mul_le_mul_right _ hle)
    _ < UInt64.size := hsum.div_lt

/-- A single scaling that saturates takes the sum of the values to the ceiling. -/
theorem sum_values_eq_ceiling {f : Frequency} (hf : f ∈ fs) (h : (f.scale r).Saturates f r) :
    (sum (values (scaleEach fs r))).toNat = UInt64.size - 1 := by
  have hmem : ceiling ∈ values (scaleEach fs r) :=
    List.mem_map.mpr ⟨f.scale r, List.mem_map_of_mem hf, h.value⟩
  have hle : ceiling.toNat ≤ total (values (scaleEach fs r)) :=
    List.le_sum_of_mem (List.mem_map_of_mem hmem)
  rw [toNat_ceiling] at hle
  rw [toNat_sum]
  omega

/-- Without saturation of a single scaling, the merged side is ahead by the carry at most.  A sum
that saturates makes only the merged side less. -/
theorem toNat_scale_sum_le_of_divides (h : ∀ f ∈ fs, (f.scale r).Divides f r) :
    ((sum fs).scale r).value.toNat
      ≤ (sum (values (scaleEach fs r))).toNat + (fs.length - 1) := by
  have hcarry := remainderSum_div_le h
  have hsum : (sum fs).toNat * r.num.toNat / r.den.toNat
      ≤ total (values (scaleEach fs r)) + remainderSum (scaleEach fs r) / r.den.toNat := by
    rw [← total_mul_num_div_den h]
    exact Nat.div_le_div_right (Nat.mul_le_mul_right _ (toNat_sum_le fs))
  rw [toNat_scale_value, toNat_sum (values _)]
  omega

/-- Wherever saturation strikes, the merged side is not ahead by more than the carry. -/
theorem toNat_scale_sum_le (fs : List Frequency) (r : Ratio) :
    ((sum fs).scale r).value.toNat
      ≤ (sum (values (scaleEach fs r))).toNat + (fs.length - 1) := by
  by_cases h : ∀ f ∈ fs, (f.scale r).Divides f r
  · exact toNat_scale_sum_le_of_divides h
  · push Not at h
    obtain ⟨f, hf, hdiv⟩ := h
    have hsat := (divides_or_saturates f r).resolve_left hdiv
    have hceiling := sum_values_eq_ceiling hf hsat
    have hlt := ((sum fs).scale r).value.toNat_lt
    omega

/-! ## Merging -/

/-- Scaling a sum and summing what is scaled agree up to the carry of the remainders.  If the
sum is exact and its scaling does not saturate, neither does any single scaling, and the
scaled sum is exactly the sum of the values and the carry of their remainders, with what
these leave for a remainder.  Wherever saturation strikes, the scaled sum is ahead of the
saturating sum of the values by at most one unit for each frequency but one. -/
theorem scale_of_sum_carries (fs : List Frequency) (r : Ratio) :
    (total fs < UInt64.size → ((sum fs).scale r).saturation = none →
      (∀ x ∈ scaleEach fs r, x.saturation = none) ∧
        ((sum fs).scale r).value.toNat
          = total (values (scaleEach fs r)) + remainderSum (scaleEach fs r) / r.den.toNat ∧
        ((sum fs).scale r).remainder.toNat = remainderSum (scaleEach fs r) % r.den.toNat) ∧
      ((sum fs).scale r).value.toNat
        ≤ (sum (values (scaleEach fs r))).toNat + (fs.length - 1) := by
  refine ⟨fun hfit hsat => ?_, toNat_scale_sum_le fs r⟩
  have hsum := divides_of_saturation_eq_none hsat
  have hdiv : ∀ f ∈ fs, (f.scale r).Divides f r := fun f hf => divides_of_mem hfit hsum hf
  obtain ⟨hvalue, hrem, -⟩ := scale_of_lt hsum.div_lt
  rw [toNat_sum_of_lt hfit] at hvalue hrem
  refine ⟨fun x hx => ?_, ?_, ?_⟩
  · obtain ⟨f, hf, rfl⟩ := List.mem_map.mp hx
    exact (hdiv f hf).saturation
  · rw [hvalue, total_mul_num_div_den hdiv]
  · rw [hrem, total_mul_num_mod_den hdiv]

/-- The exact sum is the ceiling itself.  All three remainders are as great as they can be,
and so is their carry. -/
theorem scale_of_sum_carries_at_ceiling :
    let fs : List Frequency := [⟨18446744073709551613⟩, ⟨1⟩, ⟨1⟩]
    let r : Ratio := { num := 2, den := 3 }
    total fs < UInt64.size ∧ ((sum fs).scale r).saturation = none ∧ sum fs = ceiling ∧
      ((sum fs).scale r).value.toNat
        = total (values (scaleEach fs r)) + remainderSum (scaleEach fs r) / r.den.toNat ∧
      ((sum fs).scale r).value.toNat
        = (sum (values (scaleEach fs r))).toNat + (fs.length - 1) := by
  intro fs r
  have hfit : total fs < UInt64.size := by decide
  have hsat : ((sum fs).scale r).saturation = none := by decide +kernel
  obtain ⟨hexact, -⟩ := scale_of_sum_carries fs r
  exact ⟨hfit, hsat, by decide, (hexact hfit hsat).2.1, by decide +kernel⟩

end BranchFlow.Frequency
