import Mathlib.Order.Compare
import BranchFlow.Proofs.Sorting
import BranchFlow.Proofs.ValidTerms

/-!
# The complement reverses the order

A probability and its complement sum to one (`exact_complement`), so the complement turns the order
of values around.  Of two equal probabilities `max` gives the second and `min` the first, so the two
arguments change places as well.  Sorting leaves equal probabilities as they stood: a list sorted
through its complements is in descending order, but is not the ascending list backwards.
-/

namespace BranchFlow.Probability

variable {p q : Probability}

/-! ## Terms and values of a complement -/

@[simp] theorem complement_complement (p : Probability) : p.complement.complement = p := by
  have hnum : p.complement.complement.num = p.num := by
    have hle := p.num_le_den_toNat
    rw [← UInt32.toNat_inj, toNat_complement_num, toNat_complement_num, complement_den]
    omega
  show (⟨⟨p.complement.complement.num, p.den, _⟩, _⟩ : Probability) = p
  simp only [hnum]

/-- A probability and its complement sum to one. -/
theorem exact_complement (p : Probability) : p.complement.exact = 1 - p.exact := by
  have hden : (p.den.toNat : ℚ) ≠ 0 := Nat.cast_ne_zero.mpr p.den_pos.ne'
  rw [exact_eq_div, exact_eq_div, toNat_complement_num, complement_den, Nat.cast_sub p.num_le_den_toNat,
    sub_div, div_self hden]

theorem exact_complement_le_iff : q.complement.exact ≤ p.complement.exact ↔ p.exact ≤ q.exact := by
  rw [exact_complement, exact_complement, sub_le_sub_iff_left]

/-! ## What is chosen by comparing -/

/-- The complement turns the order around. -/
theorem compare_complement (p q : Probability) :
    compare q.complement p.complement = compare p q := by
  have hanti : StrictAnti fun x : ℚ => 1 - x := fun _ _ h => sub_lt_sub_left h 1
  rw [compare_eq_compare_exact, compare_eq_compare_exact, exact_complement, exact_complement,
    ← cmp_eq_compare, ← cmp_eq_compare]
  exact hanti.cmp_map_eq _ _

theorem complement_le_complement_iff : q.complement ≤ p.complement ↔ p ≤ q := by
  rw [le_iff_exact_le, exact_complement_le_iff, le_iff_exact_le]

theorem complement_max (p q : Probability) :
    (max p q).complement = min q.complement p.complement := by
  show (if p ≤ q then q else p).complement
    = if q.complement ≤ p.complement then q.complement else p.complement
  rw [apply_ite complement]
  exact if_congr complement_le_complement_iff.symm rfl rfl

theorem complement_min (p q : Probability) :
    (min p q).complement = max q.complement p.complement := by
  show (if p ≤ q then p else q).complement
    = if q.complement ≤ p.complement then p.complement else q.complement
  rw [apply_ite complement]
  exact if_congr complement_le_complement_iff.symm rfl rfl

/-! ## Descending order -/

theorem map_complement_map_complement (ps : List Probability) :
    (ps.map complement).map complement = ps := by
  rw [List.map_map, show complement ∘ complement = id from funext complement_complement,
    List.map_id]

/-- Sorting the complements is sorting by the opposite comparison. -/
theorem map_complement_sorted (ps : List Probability) :
    (sorted (ps.map complement)).map complement = sortedDescending ps := by
  calc (sorted (ps.map complement)).map complement
      = sortedDescending ((ps.map complement).map complement) :=
        List.map_mergeSort fun p _ q _ => congrArg Ordering.isLE (compare_complement p q).symm
    _ = sortedDescending ps := by rw [map_complement_map_complement]

theorem pairwise_sortedDescending (ps : List Probability) :
    (sortedDescending ps).Pairwise fun a b => b.exact ≤ a.exact := by
  rw [← map_complement_sorted, List.pairwise_map]
  exact (comparesBy_exact.pairwise_sorted _).imp exact_complement_le_iff.mpr

/-- The complements of a value are the complements of what it lacks to one. -/
theorem filter_map_complement (ps : List Probability) (v : ℚ) :
    (ps.map complement).filter (·.exact = v) = (ps.filter (·.exact = 1 - v)).map complement := by
  rw [List.filter_map]
  congr 2
  funext p
  rw [Function.comp_apply, exact_complement, decide_eq_decide, sub_eq_iff_eq_add',
    eq_sub_iff_add_eq, add_comm, eq_comm]

/-- The probabilities of one value stay as they stood. -/
theorem filter_sortedDescending (ps : List Probability) (v : ℚ) :
    (sortedDescending ps).filter (·.exact = v) = ps.filter (·.exact = v) := by
  calc (sortedDescending ps).filter (·.exact = v)
      = ((sorted (ps.map complement)).filter (·.exact = 1 - v)).map complement := by
        rw [← map_complement_sorted, filter_map_complement]
    _ = ((ps.map complement).filter (·.exact = 1 - v)).map complement := by
        rw [comparesBy_exact.filter_sorted]
    _ = ps.filter (·.exact = v) := by
        rw [← filter_map_complement, map_complement_map_complement]

/-- The list in descending order is the only one that keeps the probabilities of each value as
they stood. -/
theorem eq_sortedDescending {ps qs : List Probability}
    (horder : qs.Pairwise fun a b => b.exact ≤ a.exact)
    (hclass : ∀ v : ℚ, qs.filter (·.exact = v) = ps.filter (·.exact = v)) :
    qs = sortedDescending ps := by
  have horder' : (qs.map complement).Pairwise fun a b => a.exact ≤ b.exact :=
    List.pairwise_map.mpr (horder.imp exact_complement_le_iff.mpr)
  have hclass' : ∀ v : ℚ, (qs.map complement).filter (·.exact = v)
      = (ps.map complement).filter (·.exact = v) := by
    intro v
    rw [filter_map_complement, filter_map_complement, hclass]
  rw [← map_complement_sorted, ← comparesBy_exact.eq_sorted horder' hclass',
    map_complement_map_complement]

/-! ## Reversal -/

/-- The complement is an involution that reverses the order.  The difference of the words is
valid, and taken twice it gives back the terms.  Comparison, `max` and `min` of complements are
those of the probabilities with the arguments in the other order, in the same terms also when the
values are equal.  Sorting the complements of a list gives the complements of the one permutation
in descending order that keeps the probabilities of each value as they stood. -/
theorem complement_reverses_order (p q : Probability) (ps : List Probability) :
    (p.complement.terms = p.terms.complement ∧ p.terms.complement.Valid) ∧
    p.complement.complement = p ∧
    compare p q = compare q.complement p.complement ∧
    (max p q).complement = min q.complement p.complement ∧
    (min p q).complement = max q.complement p.complement ∧
    (sorted (ps.map complement)).map complement = sortedDescending ps ∧
    ∀ qs : List Probability,
      qs.Perm ps ∧ qs.Pairwise (fun a b => b.exact ≤ a.exact) ∧
          (∀ v : ℚ, qs.filter (·.exact = v) = ps.filter (·.exact = v)) ↔
        qs = sortedDescending ps := by
  refine ⟨⟨rfl, Terms.valid_terms p.complement⟩, complement_complement p,
    (compare_complement p q).symm, complement_max p q, complement_min p q,
    map_complement_sorted ps, fun qs => ⟨fun ⟨_, horder, hclass⟩ =>
      eq_sortedDescending horder hclass, ?_⟩⟩
  rintro rfl
  exact ⟨List.mergeSort_perm .., pairwise_sortedDescending ps, filter_sortedDescending ps⟩

end BranchFlow.Probability
