import BranchFlow.Proofs.MultiplicationChain
import BranchFlow.Proofs.ScaleContract

/-!
# Dividing again and again rounds only once

In the account of a run of divisions by whole numbers (`Frequency.lost`) every returned value is
multiplied by the denominators before it and by nothing else.  So what the run loses is a number in
mixed radix, which is less than the product of its radices (`lost_lt_denProd`), and is therefore the
remainder of one division by that product.
-/

namespace BranchFlow

open Ratio

/-! ## Numerators that are one -/

theorem Ratio.numProd_eq_one {rs : List Ratio} (h : ∀ r ∈ rs, r.num = 1) : numProd rs = 1 :=
  List.prod_eq_one (List.forall_mem_map.mpr fun r hr => congrArg UInt32.toNat (h r hr))

namespace Frequency

variable {f : Frequency} {r : Ratio} {rs : List Ratio}

theorem divides_of_num_eq_one (f : Frequency) (h : r.num = 1) : (f.scale r).Divides f r := by
  refine divides_of_lt ?_
  rw [h]
  calc f.toNat * 1 / r.den.toNat ≤ f.toNat := by
        rw [Nat.mul_one]
        exact Nat.div_le_self ..
    _ < UInt64.size := f.toNat_lt

/-! ## Digits -/

/-- Divisions by whole numbers return remainders. -/
theorem returned_lt_den (f : Frequency) (h : ∀ r ∈ rs, r.num = 1) :
    List.Forall₂ (fun x r => x < r.den) (f.returned rs) rs := by
  induction rs generalizing f with
  | nil => exact .nil
  | cons r rs ih =>
      obtain ⟨hr, hrs⟩ := List.forall_mem_cons.mp h
      exact .cons (f.divides_of_num_eq_one hr).remainder_lt (ih _ hrs)

/-- One more digit in front of a number in mixed radix. -/
theorem lost_cons_lt_denProd (hr : (f.scale r).remainder < r.den) (hrs : ∀ r ∈ rs, r.num = 1)
    (h : (f.scale r).value.lost rs < denProd rs) : f.lost (r :: rs) < denProd (r :: rs) := by
  rw [lost, denProd_cons, numProd_eq_one hrs, Nat.mul_one]
  calc (f.scale r).remainder.toNat + r.den.toNat * (f.scale r).value.lost rs
      < r.den.toNat + r.den.toNat * (f.scale r).value.lost rs :=
        Nat.add_lt_add_right (UInt32.lt_iff_toNat_lt.mp hr) _
    _ = r.den.toNat * ((f.scale r).value.lost rs + 1) := by
        rw [Nat.mul_add_one, Nat.add_comm]
    _ ≤ r.den.toNat * denProd rs := Nat.mul_le_mul_left _ h

/-- What divisions by whole numbers lose is less than the product of the numbers. -/
theorem lost_lt_denProd (f : Frequency) (h : ∀ r ∈ rs, r.num = 1) : f.lost rs < denProd rs := by
  induction rs generalizing f with
  | nil => exact Nat.one_pos
  | cons r rs ih =>
      obtain ⟨hr, hrs⟩ := List.forall_mem_cons.mp h
      exact lost_cons_lt_denProd (f.divides_of_num_eq_one hr).remainder_lt hrs (ih _ hrs)

/-- After a first scaling by any ratio, what divisions by whole numbers lose has the returned
values as its digits. -/
theorem lost_cons_eq_sum (f : Frequency) (r : Ratio) (hrs : ∀ r ∈ rs, r.num = 1) :
    f.lost (r :: rs) = ∑ i ∈ Finset.range (r :: rs).length,
      ((f.returned (r :: rs)).getD i 0).toNat * denProd ((r :: rs).take i) := by
  rw [lost_eq_sum]
  refine Finset.sum_congr rfl fun i _ => ?_
  have hdrop : numProd ((r :: rs).drop (i + 1)) = 1 :=
    numProd_eq_one fun s hs => hrs s (List.mem_of_mem_drop hs)
  rw [hdrop, Nat.mul_one]

/-! ## One division -/

/-- Repeated division does not accumulate error.  After a scaling that does not saturate, any
number of divisions by whole numbers end in the quotient of one division by the product of all
denominators.  The returned values are less than their denominators, and they are the digits of
the remainder of this one division, with the denominators as radices. -/
theorem nested_division_rounds_once (f : Frequency) (r : Ratio) (ds : List Ratio)
    (hfits : (f.scale r).saturation = none) (hds : ∀ d ∈ ds, d.num = 1) :
    (f.scaleAll (r :: ds)).toNat = f.toNat * r.num.toNat / denProd (r :: ds) ∧
    List.Forall₂ (fun x s => x < s.den) (f.returned (r :: ds)) (r :: ds) ∧
    f.toNat * r.num.toNat % denProd (r :: ds)
      = ∑ i ∈ Finset.range (r :: ds).length,
        ((f.returned (r :: ds)).getD i 0).toNat * denProd ((r :: ds).take i) := by
  have hrem := (divides_of_saturation_eq_none hfits).remainder_lt
  have hdigits : List.Forall₂ (fun x s => x < s.den) (f.returned (r :: ds)) (r :: ds) :=
    .cons hrem (returned_lt_den _ hds)
  have hlost := lost_cons_lt_denProd hrem hds (lost_lt_denProd _ hds)
  have haccount := scaleAll_mul_denProd_add_lost f (r :: ds)
    (hdigits.imp fun _ _ => UInt32.ne_of_lt)
  rw [numProd_cons, numProd_eq_one hds, Nat.mul_one, Nat.add_comm,
    Nat.mul_comm _ (denProd _)] at haccount
  obtain ⟨hquot, hmod⟩ := (Nat.div_mod_unique (denProd_pos _)).mpr ⟨haccount, hlost⟩
  exact ⟨hquot.symm, hdigits, hmod.trans (lost_cons_eq_sum f r hds)⟩

/-- The product of the denominators does not fit in 64 bits, and no digit is zero. -/
theorem nested_division_rounds_once_past_width :
    let f : Frequency := ⟨12345678901234567890⟩
    let r : Ratio := { num := 4294967295, den := 4294967291 }
    let ds : List Ratio := [{ num := 1, den := 7 }, { num := 1, den := 4294967295 },
      { num := 1, den := 10 }]
    (f.scale r).saturation = none ∧ (∀ d ∈ ds, d.num = 1) ∧
      UInt64.size < denProd (r :: ds) ∧ (f.scaleAll (r :: ds)).toNat = 41063605 ∧
      f.toNat * r.num.toNat / denProd (r :: ds) = 41063605 ∧
      f.returned (r :: ds) = [253323917, 4, 2616705997, 2] := by
  intro f r ds
  have hfits : (f.scale r).saturation = none := by decide +kernel
  have hds : ∀ d ∈ ds, d.num = 1 := by decide
  have hend : (f.scaleAll (r :: ds)).toNat = 41063605 := by decide +kernel
  obtain ⟨hquot, -, -⟩ := nested_division_rounds_once f r ds hfits hds
  exact ⟨hfits, hds, by decide +kernel, hend, hquot.symm.trans hend, by decide +kernel⟩

end Frequency

end BranchFlow
