import Mathlib.Algebra.Order.BigOperators.Group.List
import Mathlib.Algebra.Order.Field.Basic
import Mathlib.Tactic.FieldSimp
import Mathlib.Tactic.Linarith
import BranchFlow.Frequency.SideBySide
import BranchFlow.Proofs.ScaleContract
import BranchFlow.Proofs.Sum

/-!
# Branches with any number of edges conserve flow

The denominators of the edges may have nothing to do with each other.  Each share of a frequency
misses a fraction of one unit, the remainder over the denominator, and the shares and these
fractions make up the frequency exactly (`total_split_add_missing`).  With `k` edges less than `k`
units are missing, and since numbers of units are whole, at most `k - 1` are.
-/

namespace BranchFlow

open Scaled

/-- What a division leaves over is the fraction that its value misses. -/
theorem Scaled.Divides.value_add_fraction {x : Scaled} {f : Frequency} {r : Ratio}
    (h : x.Divides f r) :
    (x.value.toNat : ℚ) + x.remainder.toNat / r.den.toNat
      = f.toNat * (r.num.toNat / r.den.toNat) := by
  have hden : (r.den.toNat : ℚ) ≠ 0 := Nat.cast_ne_zero.mpr r.den_pos.ne'
  have hproduct : (x.value.toNat : ℚ) * r.den.toNat + x.remainder.toNat
      = f.toNat * r.num.toNat := by exact_mod_cast h.product.symm
  field_simp
  exact hproduct

namespace Probability

variable {ps : List Probability}

theorem SumToOne.ne_nil (h : SumToOne ps) : ps ≠ [] := by
  rintro rfl
  exact absurd h (by decide)

theorem SumToOne.den_pos (h : SumToOne ps) {d : UInt32} (hd : ∀ p ∈ ps, p.den = d) :
    0 < d.toNat := by
  obtain ⟨p, hp⟩ := List.exists_mem_of_ne_nil ps h.ne_nil
  rw [← hd p hp]
  exact p.den_pos

end Probability

namespace Frequency

variable {f : Frequency} {ps : List Probability} {d : UInt32}

theorem divides_multiply (f : Frequency) (p : Probability) :
    (f.multiply p).Divides f p.toRatio := divides_of_lt (toNat_mul_num_div_den_lt f p)

/-! ## What the shares miss -/

/-- The fractions that the shares of a frequency miss, all together. -/
def missing (f : Frequency) (ps : List Probability) : ℚ :=
  (ps.map fun p => ((f.multiply p).remainder.toNat : ℚ) / p.den.toNat).sum

theorem missing_cons (f : Frequency) (p : Probability) (ps : List Probability) :
    f.missing (p :: ps)
      = ((f.multiply p).remainder.toNat : ℚ) / p.den.toNat + f.missing ps := rfl

theorem missing_nonneg (f : Frequency) (ps : List Probability) : 0 ≤ f.missing ps := by
  refine List.sum_nonneg fun x hx => ?_
  obtain ⟨p, -, rfl⟩ := List.mem_map.mp hx
  exact div_nonneg (Nat.cast_nonneg _) (Nat.cast_nonneg _)

/-- Each share misses less than one unit. -/
theorem missing_lt_length (f : Frequency) (h : ps ≠ []) : f.missing ps < ps.length := by
  have hfraction : ∀ p ∈ ps, ((f.multiply p).remainder.toNat : ℚ) / p.den.toNat < 1 := by
    intro p _
    rw [div_lt_one (Nat.cast_pos.mpr p.den_pos), Nat.cast_lt]
    exact UInt32.lt_iff_toNat_lt.mp (remainder_multiply_lt f p)
  calc f.missing ps
      < (ps.map fun _ => (1 : ℚ)).sum := List.sum_lt_sum_of_ne_nil h _ _ hfraction
    _ = ps.length := by rw [List.map_const', List.sum_replicate, nsmul_one]

/-- With one denominator the fractions are the sum of the remainders over it. -/
theorem missing_of_den (f : Frequency) (h : ∀ p ∈ ps, p.den = d) :
    f.missing ps = remainderSum (f.split ps) / d.toNat := by
  induction ps with
  | nil => exact (zero_div _).symm
  | cons p ps ih =>
      obtain ⟨hp, hps⟩ := List.forall_mem_cons.mp h
      rw [missing_cons, ih hps, hp, ← add_div, split_cons, remainderSum_cons, Nat.cast_add]

/-- The shares and what they miss are the exact part of the frequency. -/
theorem total_split_add_missing (f : Frequency) (ps : List Probability) :
    (total (values (f.split ps)) : ℚ) + f.missing ps
      = f.toNat * (ps.map Probability.exact).sum := by
  induction ps with
  | nil => simp [split, values, missing]
  | cons p ps ih =>
      have hshare := (divides_multiply f p).value_add_fraction
      rw [List.map_cons, List.sum_cons, mul_add, ← ih, Probability.exact_eq_div, ← hshare, split_cons,
        values_cons, total_cons, missing_cons, Nat.cast_add, add_add_add_comm]

/-! ## Shares of the whole frequency -/

section

variable (h : Probability.SumToOne ps)

include h

theorem total_split_add_missing_of_sumToOne :
    (total (values (f.split ps)) : ℚ) + f.missing ps = f.toNat := by
  rw [total_split_add_missing, h, mul_one]

theorem total_split_le : total (values (f.split ps)) ≤ f.toNat := by
  have hsum := total_split_add_missing_of_sumToOne (f := f) h
  have hmissing := missing_nonneg f ps
  have hle : (total (values (f.split ps)) : ℚ) ≤ f.toNat := by linarith
  exact_mod_cast hle

theorem toNat_lt_total_split_add : f.toNat < total (values (f.split ps)) + ps.length := by
  have hsum := total_split_add_missing_of_sumToOne (f := f) h
  have hmissing := missing_lt_length f h.ne_nil
  have hlt : (f.toNat : ℚ) < total (values (f.split ps)) + ps.length := by linarith
  exact_mod_cast hlt

/-- With one denominator, the remainders are a whole number of units. -/
theorem total_split_mul_den_add_remainderSum (hd : ∀ p ∈ ps, p.den = d) :
    d.toNat * total (values (f.split ps)) + remainderSum (f.split ps) = d.toNat * f.toNat := by
  have hsum := total_split_add_missing_of_sumToOne (f := f) h
  have hden : (d.toNat : ℚ) ≠ 0 := Nat.cast_ne_zero.mpr (h.den_pos hd).ne'
  rw [missing_of_den f hd] at hsum
  field_simp at hsum
  rw [Nat.mul_comm]
  exact_mod_cast hsum

end

/-- A branch with any number of edges conserves flow.  If the probabilities of its edges sum
to one, neither a share of the frequency saturates nor any addition of the shares.  Their sum
is not above the frequency and misses at most one unit for each edge but one.  If moreover
all edges have one denominator, it divides the sum of the remainders, and the quotient is
exactly what is missing. -/
theorem split_conserves (f : Frequency) {ps : List Probability}
    (h : Probability.SumToOne ps) :
    (∀ x ∈ f.split ps, x.saturation = none) ∧ SumsExactly (values (f.split ps)) ∧
      sum (values (f.split ps)) ≤ f ∧
      f.toNat ≤ (sum (values (f.split ps))).toNat + (ps.length - 1) ∧
      ∀ d : UInt32, (∀ p ∈ ps, p.den = d) →
        d.toNat ∣ remainderSum (f.split ps) ∧
          (sum (values (f.split ps))).toNat + remainderSum (f.split ps) / d.toNat = f.toNat := by
  have hle := total_split_le (f := f) h
  have hlt := toNat_lt_total_split_add (f := f) h
  have hfits : total (values (f.split ps)) < UInt64.size := Nat.lt_of_le_of_lt hle f.toNat_lt
  refine ⟨?_, sumsExactly_of_lt hfits, ?_, ?_, fun d hd => ?_⟩
  · intro x hx
    obtain ⟨p, -, rfl⟩ := List.mem_map.mp hx
    exact saturation_multiply f p
  · rw [le_iff_toNat_le, toNat_sum_of_lt hfits]
    exact hle
  · rw [toNat_sum_of_lt hfits]
    omega
  · have hsum := total_split_mul_den_add_remainderSum (f := f) h hd
    have hdvd : d.toNat ∣ remainderSum (f.split ps) := by
      rw [← Nat.dvd_add_right (Nat.dvd_mul_right _ (total (values (f.split ps)))), hsum]
      exact Nat.dvd_mul_right ..
    have hpos := h.den_pos hd
    refine ⟨hdvd, ?_⟩
    rw [toNat_sum_of_lt hfits, ← Nat.mul_add_div hpos, hsum, Nat.mul_div_cancel_left _ hpos]

/-- Three shares miss two units, with unrelated denominators as well as with a common one,
where the remainders sum to twice the denominator. -/
theorem split_conserves_at_bound :
    let f : Frequency := ⟨18446744073709551611⟩
    let ps : List Probability :=
      [{ num := 1, den := 2 }, { num := 1, den := 3 }, { num := 1, den := 6 }]
    let g : Frequency := ⟨18446744073709551614⟩
    let qs : List Probability :=
      [{ num := 2, den := 5 }, { num := 2, den := 5 }, { num := 1, den := 5 }]
    Probability.SumToOne ps ∧ f.toNat ≤ (sum (values (f.split ps))).toNat + 2 ∧
      (sum (values (f.split ps))).toNat + 2 = f.toNat ∧
      Probability.SumToOne qs ∧ (∀ q ∈ qs, q.den = 5) ∧ remainderSum (g.split qs) = 10 ∧
      (sum (values (g.split qs))).toNat + remainderSum (g.split qs) / 5 = g.toNat := by
  intro f ps g qs
  have hps : Probability.SumToOne ps := by decide +kernel
  have hqs : Probability.SumToOne qs := by decide +kernel
  have hden : ∀ q ∈ qs, q.den = 5 := by decide
  obtain ⟨-, -, -, hbound, -⟩ := split_conserves f hps
  obtain ⟨-, -, -, -, hexact⟩ := split_conserves g hqs
  exact ⟨hps, hbound, by decide +kernel, hqs, hden, by decide +kernel, (hexact 5 hden).2⟩

end Frequency

end BranchFlow
