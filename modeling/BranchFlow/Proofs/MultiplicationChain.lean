import Mathlib.Algebra.Order.BigOperators.GroupWithZero.List
import BranchFlow.Frequency.Chain
import BranchFlow.Proofs.ScalingRun

/-!
# Chains of multiplications are accurate

A chain of multiplications is a run of scalings that never saturates, and loses the values that it
returns (`Frequency.lost`).  A probability is at most one, so at the scale of the result each of
them is less than one unit, and a chain of `k` edges loses less than `k` units (`lost_cons_lt`).
-/

namespace BranchFlow

open Ratio

/-! ## Products of numerators and denominators -/

namespace Ratio

theorem denProd_pos (rs : List Ratio) : 0 < denProd rs :=
  List.prod_pos (List.forall_mem_map.mpr fun r _ => r.den_pos)

end Ratio

theorem Probability.numProd_le_denProd (ps : List Probability) :
    numProd (ps.map toRatio) ≤ denProd (ps.map toRatio) := by
  induction ps with
  | nil => exact Nat.le_refl 1
  | cons p ps ih => exact Nat.mul_le_mul p.num_le_den_toNat ih

namespace Frequency

open Probability

/-- The exact product does not depend on the order of the edges. -/
theorem productFloor_perm (f : Frequency) {ps qs : List Probability} (h : ps.Perm qs) :
    f.productFloor ps = f.productFloor qs := by
  have hratios := h.map toRatio
  rw [productFloor, productFloor, numProd, denProd, (hratios.map _).prod_eq,
    (hratios.map _).prod_eq]
  rfl

/-! ## A chain is a run of scalings -/

theorem multiplyAll_eq_scaleAll (f : Frequency) (ps : List Probability) :
    f.multiplyAll ps = f.scaleAll (ps.map toRatio) := by
  rw [scaleAll, List.foldl_map]
  rfl

/-- A chain of multiplications in place does not fail and reports nothing. -/
theorem run_multiplyAllInPlace (f : Frequency) (ps : List Probability) (es : List Saturation) :
    (multiplyAllInPlace ps).run ⟨f, es⟩ = .ok () ⟨f.multiplyAll ps, es⟩ := by
  induction ps generalizing f with
  | nil => rfl
  | cons p ps ih =>
      show (do multiplyInPlace p; multiplyAllInPlace ps : InPlace Violation Frequency Unit).run
        ⟨f, es⟩ = _
      rw [EStateM.run_bind, run_multiplyInPlace, Traced.next, saturation_multiply,
        Option.toList_none, List.append_nil]
      exact ih (f * p)

/-- No multiplication of a chain saturates. -/
theorem returned_ne_den (f : Frequency) (ps : List Probability) :
    List.Forall₂ (fun x r => x ≠ r.den) (f.returned (ps.map toRatio)) (ps.map toRatio) := by
  induction ps generalizing f with
  | nil => exact .nil
  | cons p ps ih => exact .cons (UInt32.ne_of_lt (remainder_multiply_lt f p)) (ih (f * p))

/-- What a chain ends with and what it loses make up the exact product. -/
theorem toNat_multiplyAll_mul_denProd_add_lost (f : Frequency) (ps : List Probability) :
    (f.multiplyAll ps).toNat * denProd (ps.map toRatio) + f.lost (ps.map toRatio)
      = f.toNat * numProd (ps.map toRatio) := by
  rw [multiplyAll_eq_scaleAll]
  exact scaleAll_mul_denProd_add_lost f _ (returned_ne_den f ps)

/-! ## What a chain loses -/

/-- One more edge in front of a chain loses less than one more unit. -/
theorem lost_cons_lt_of_le {f : Frequency} {p : Probability} {ps : List Probability} {k : Nat}
    (h : (f * p).lost (ps.map toRatio) ≤ k * denProd (ps.map toRatio)) :
    f.lost ((p :: ps).map toRatio) < (k + 1) * denProd ((p :: ps).map toRatio) := by
  have hrem : (f.multiply p).remainder.toNat < p.den.toNat :=
    UInt32.lt_iff_toNat_lt.mp (remainder_multiply_lt f p)
  show (f.multiply p).remainder.toNat * numProd (ps.map toRatio)
      + p.den.toNat * (f * p).lost (ps.map toRatio)
    < (k + 1) * (p.den.toNat * denProd (ps.map toRatio))
  calc (f.multiply p).remainder.toNat * numProd (ps.map toRatio)
        + p.den.toNat * (f * p).lost (ps.map toRatio)
      ≤ (f.multiply p).remainder.toNat * denProd (ps.map toRatio)
        + p.den.toNat * (k * denProd (ps.map toRatio)) := by
        gcongr
        exact numProd_le_denProd ps
    _ < p.den.toNat * denProd (ps.map toRatio)
        + p.den.toNat * (k * denProd (ps.map toRatio)) := by
        gcongr
        exact denProd_pos _
    _ = (k + 1) * (p.den.toNat * denProd (ps.map toRatio)) := by ring

theorem lost_le (f : Frequency) (ps : List Probability) :
    f.lost (ps.map toRatio) ≤ ps.length * denProd (ps.map toRatio) := by
  induction ps generalizing f with
  | nil => exact Nat.zero_le _
  | cons p ps ih => exact Nat.le_of_lt (lost_cons_lt_of_le (ih (f * p)))

/-- A chain loses less than one unit for each of its edges. -/
theorem lost_cons_lt (f : Frequency) (p : Probability) (ps : List Probability) :
    f.lost ((p :: ps).map toRatio) < (p :: ps).length * denProd ((p :: ps).map toRatio) :=
  lost_cons_lt_of_le (lost_le (f * p) ps)

/-! ## Accuracy -/

/-- A chain rounds down, so it is not above the exact product rounded down. -/
theorem multiplyAll_le_productFloor (f : Frequency) (ps : List Probability) :
    (f.multiplyAll ps).toNat ≤ f.productFloor ps := by
  rw [productFloor, Nat.le_div_iff_mul_le (denProd_pos _),
    ← toNat_multiplyAll_mul_denProd_add_lost]
  exact Nat.le_add_right ..

/-- A chain of `k` edges is less than `k` units below the exact product. -/
theorem productFloor_le_multiplyAll_add (f : Frequency) (ps : List Probability) :
    f.productFloor ps ≤ (f.multiplyAll ps).toNat + (ps.length - 1) := by
  cases ps with
  | nil =>
      show f.toNat * 1 / 1 ≤ f.toNat
      omega
  | cons p ps =>
      have hlost := lost_cons_lt f p ps
      refine Nat.le_of_lt_succ ?_
      rw [productFloor, Nat.div_lt_iff_lt_mul (denProd_pos _),
        ← toNat_multiplyAll_mul_denProd_add_lost]
      calc (f.multiplyAll (p :: ps)).toNat * denProd ((p :: ps).map toRatio)
            + f.lost ((p :: ps).map toRatio)
          < (f.multiplyAll (p :: ps)).toNat * denProd ((p :: ps).map toRatio)
            + (p :: ps).length * denProd ((p :: ps).map toRatio) := by gcongr
        _ = ((f.multiplyAll (p :: ps)).toNat + (p :: ps).length)
            * denProd ((p :: ps).map toRatio) := (Nat.add_mul ..).symm

/-- A chain of multiplications is not above the exact product rounded down, and at most one
unit for each edge but one below it.  So two orders of the same edges differ by at most that
many units.  Multiplying in place does not fail, leaves the same frequency and reports nothing. -/
theorem multiplyAll_accurate (f : Frequency) (ps : List Probability) :
    (f.multiplyAll ps).toNat ≤ f.productFloor ps ∧
      f.productFloor ps ≤ (f.multiplyAll ps).toNat + (ps.length - 1) ∧
      (∀ qs : List Probability, ps.Perm qs →
        (f.multiplyAll ps).toNat ≤ (f.multiplyAll qs).toNat + (ps.length - 1) ∧
          (f.multiplyAll qs).toNat ≤ (f.multiplyAll ps).toNat + (ps.length - 1)) ∧
      ∀ es, (multiplyAllInPlace ps).run ⟨f, es⟩ = .ok () ⟨f.multiplyAll ps, es⟩ := by
  have hle := multiplyAll_le_productFloor f ps
  have hge := productFloor_le_multiplyAll_add f ps
  refine ⟨hle, hge, fun qs h => ?_, run_multiplyAllInPlace f ps⟩
  have hle' := multiplyAll_le_productFloor f qs
  have hge' := productFloor_le_multiplyAll_add f qs
  rw [productFloor_perm f h] at hle hge
  rw [h.length_eq] at hge ⊢
  omega

/-- One order of three edges is two units below the exact product, and another one meets it. -/
theorem multiplyAll_accurate_of_reordered :
    let f : Frequency := ⟨18446744073709551599⟩
    let ps : List Probability :=
      [{ num := 1, den := 7 }, { num := 5, den := 7 }, { num := 8, den := 9 }]
    let qs : List Probability :=
      [{ num := 5, den := 7 }, { num := 8, den := 9 }, { num := 1, den := 7 }]
    ps.Perm qs ∧ (f.multiplyAll qs).toNat ≤ (f.multiplyAll ps).toNat + 2 ∧
      (f.multiplyAll ps).toNat + 2 = f.productFloor ps ∧
      (f.multiplyAll qs).toNat = f.productFloor ps := by
  intro f ps qs
  have hperm : ps.Perm qs := by decide
  obtain ⟨-, -, horder, -⟩ := multiplyAll_accurate f ps
  exact ⟨hperm, (horder qs hperm).2, by decide +kernel, by decide +kernel⟩

end Frequency

end BranchFlow
