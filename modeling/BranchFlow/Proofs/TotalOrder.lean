import Mathlib.Algebra.Order.Field.Basic
import BranchFlow.Probability.Value

/-!
# Comparison by value is a total order

A type may compare its values by a *key*, which two different values can have in common
(`ComparesBy`).  If keys are linearly ordered, all laws of a total order follow that speak of
equality of keys.  The key of a probability is the number that it stands for (`comparesBy_exact`).
-/

namespace BranchFlow

/-! ## Comparison by a key -/

/-- The comparison and the equality of a type are those of a key. -/
structure ComparesBy {α κ : Type} [Ord α] [BEq α] [LinearOrder κ] (key : α → κ) : Prop where
  compare_eq : ∀ a b, compare a b = compare (key a) (key b)
  beq_iff : ∀ a b, a == b ↔ key a = key b

namespace ComparesBy

variable {α κ : Type} [Ord α] [BEq α] [LinearOrder κ] {key : α → κ} (h : ComparesBy key)
  {a b c a' b' : α}

include h

theorem compare_eq_lt_iff : compare a b = .lt ↔ key a < key b := by
  rw [h.compare_eq, compare_lt_iff_lt]

theorem compare_eq_eq_iff : compare a b = .eq ↔ key a = key b := by
  rw [h.compare_eq, compare_eq_iff_eq]

theorem isLE_compare_iff : (compare a b).isLE ↔ key a ≤ key b := by
  rw [Ordering.isLE_iff_ne_gt, h.compare_eq, ← Ne, compare_le_iff_le]

theorem beq_iff_compare_eq : a == b ↔ compare a b = .eq := by
  rw [h.beq_iff, h.compare_eq_eq_iff]

theorem compare_self : compare a a = .eq := h.compare_eq_eq_iff.mpr rfl

theorem compare_swap : compare b a = (compare a b).swap := by
  rw [h.compare_eq, h.compare_eq]
  exact Std.OrientedOrd.eq_swap

theorem isLE_total : (compare a b).isLE ∨ (compare b a).isLE := by
  rw [h.isLE_compare_iff, h.isLE_compare_iff]
  exact le_total ..

/-- Of three values in order the first and the last compare as the first two do, or, if these
are equal, as the last two. -/
theorem compare_trans (hab : (compare a b).isLE) (hbc : (compare b c).isLE) :
    compare a c = (compare a b).then (compare b c) := by
  rw [h.isLE_compare_iff] at hab hbc
  rcases hab.lt_or_eq with hlt | heq
  · rw [h.compare_eq_lt_iff.mpr hlt, h.compare_eq_lt_iff.mpr (hlt.trans_le hbc)]
    rfl
  · rw [h.compare_eq_eq_iff.mpr heq, h.compare_eq, heq, ← h.compare_eq]
    rfl

/-- Values that are equal stand for each other in every comparison. -/
theorem compare_congr (ha : a == a') (hb : b == b') : compare a' b' = compare a b := by
  rw [h.beq_iff] at ha hb
  rw [h.compare_eq, ← ha, ← hb, ← h.compare_eq]

theorem beq_congr (ha : a == a') (hb : b == b') : (a' == b') = (a == b) := by
  rw [Bool.eq_iff_iff, h.beq_iff_compare_eq, h.beq_iff_compare_eq, h.compare_congr ha hb]

end ComparesBy

/-! ## Probabilities are compared by value -/

namespace Probability

variable {p q r : Probability}

theorem exact_lt_exact_iff :
    p.exact < q.exact ↔ p.num.toNat * q.den.toNat < q.num.toNat * p.den.toNat := by
  rw [exact_eq_div, exact_eq_div,
    div_lt_div_iff₀ (Nat.cast_pos.mpr p.den_pos) (Nat.cast_pos.mpr q.den_pos)]
  exact_mod_cast Iff.rfl

theorem exact_eq_exact_iff :
    p.exact = q.exact ↔ p.num.toNat * q.den.toNat = q.num.toNat * p.den.toNat := by
  rw [exact_eq_div, exact_eq_div, div_eq_div_iff (Nat.cast_ne_zero.mpr p.den_pos.ne')
    (Nat.cast_ne_zero.mpr q.den_pos.ne')]
  exact_mod_cast Iff.rfl

/-- Cross products compare as the numbers that the probabilities stand for. -/
theorem compare_eq_compare_exact (p q : Probability) :
    compare p q = compare p.exact q.exact := by
  have hcross : compare p q
      = compare (p.num.toNat * q.den.toNat) (q.num.toNat * p.den.toNat) :=
    Ratio.compare_eq p.toRatio q.toRatio
  rw [hcross]
  rcases lt_trichotomy p.exact q.exact with hlt | heq | hgt
  · rw [compare_lt_iff_lt.mpr hlt, compare_lt_iff_lt]
    exact exact_lt_exact_iff.mp hlt
  · rw [compare_eq_iff_eq.mpr heq, compare_eq_iff_eq]
    exact exact_eq_exact_iff.mp heq
  · rw [compare_gt_iff_gt.mpr hgt, compare_gt_iff_gt]
    exact exact_lt_exact_iff.mp hgt

theorem comparesBy_exact : ComparesBy exact where
  compare_eq := compare_eq_compare_exact
  beq_iff p q := by rw [beq_iff, exact_eq_exact_iff]

theorem le_iff_exact_le : p ≤ q ↔ p.exact ≤ q.exact := comparesBy_exact.isLE_compare_iff

theorem lt_iff_exact_lt : p < q ↔ p.exact < q.exact := comparesBy_exact.compare_eq_lt_iff

theorem beq_iff_exact_eq : p == q ↔ p.exact = q.exact := comparesBy_exact.beq_iff p q

/-! ## Operators -/

theorem holds_eq (op : OrderOperator) (p q : Probability) :
    holds op p q = op.admits (compare p q) := rfl

/-- An operator holds of two probabilities if and only if they are in its relation. -/
theorem holds_iff (op : OrderOperator) (p q : Probability) : holds op p q ↔ op.Relates p q := by
  have hswap : compare q p = (compare p q).swap := comparesBy_exact.compare_swap
  rw [holds_eq]
  cases op with
  | lt => exact Ordering.isLT_iff_eq_lt
  | le => exact Iff.rfl
  | gt =>
      show (compare p q).isGT ↔ compare q p = .lt
      rw [hswap, ← Ordering.isLT_iff_eq_lt, Ordering.isLT_swap]
  | ge =>
      show (compare p q).isGE ↔ (compare q p).isLE
      rw [hswap, Ordering.isLE_swap]

theorem relates_exact_iff (op : OrderOperator) (p q : Probability) :
    op.Relates p.exact q.exact ↔ op.Relates p q := by
  cases op with
  | lt => exact lt_iff_exact_lt.symm
  | le => exact le_iff_exact_le.symm
  | gt => exact lt_iff_exact_lt.symm
  | ge => exact le_iff_exact_le.symm

/-! ## The total order -/

/-- Comparison of probabilities is a total order on the numbers they stand for.  The cross
products are exact, and the comparison is that of the rational numbers.  So it is reflexive and
total, it is reversed by swapping its arguments, and it is transitive in every mixture of less
and equal.  The partial comparison and the operators agree with it, equality is when it says so,
and probabilities that are equal in other terms stand for each other everywhere. -/
theorem comparison_is_total_order (p q r : Probability) :
    ((p.cross q.toRatio).1.toNat = p.num.toNat * q.den.toNat ∧
      (p.cross q.toRatio).2.toNat = q.num.toNat * p.den.toNat) ∧
    compare p q = compare p.exact q.exact ∧
    compare p p = .eq ∧ (p ≤ q ∨ q ≤ p) ∧ compare q p = (compare p q).swap ∧
    ((compare p q).isLE → (compare q r).isLE →
      compare p r = (compare p q).then (compare q r)) ∧
    p.partialCompare q = some (compare p q) ∧
    (∀ op, holds op p q = op.admits (compare p q) ∧ (holds op p q ↔ op.Relates p q) ∧
      (holds op p q ↔ op.Relates p.exact q.exact)) ∧
    (p == q ↔ compare p q = .eq) ∧
    ∀ p' q' : Probability, p == p' → q == q' →
      compare p' q' = compare p q ∧ (p' == q') = (p == q) ∧
        ∀ op, holds op p' q' = holds op p q := by
  have hby := comparesBy_exact
  refine ⟨⟨Ratio.toNat_cross_fst .., Ratio.toNat_cross_snd ..⟩, compare_eq_compare_exact p q,
    hby.compare_self, hby.isLE_total, hby.compare_swap, hby.compare_trans, rfl, fun op => ?_,
    hby.beq_iff_compare_eq, fun p' q' hp hq => ?_⟩
  · exact ⟨holds_eq op p q, holds_iff op p q, by rw [holds_iff, relates_exact_iff]⟩
  · refine ⟨hby.compare_congr hp hq, hby.beq_congr hp hq, fun op => ?_⟩
    rw [holds_eq, holds_eq, hby.compare_congr hp hq]

/-- Two neighbours at the edge of 32 bits and one, which compares alike in its least and in its
greatest terms. -/
theorem comparison_is_total_order_at_edge :
    let p : Probability := { num := 4294967293, den := 4294967294 }
    let q : Probability := { num := 4294967294, den := 4294967295 }
    let r : Probability := { num := 4294967295, den := 4294967295 }
    (compare p q).isLE ∧ (compare q r).isLE ∧ compare p r = (compare p q).then (compare q r) ∧
      compare p q = .lt ∧ r == .certain ∧ q == q ∧
      compare .certain q = compare r q ∧ holds .gt .certain q = holds .gt r q := by
  intro p q r
  have hpq : (compare p q).isLE := by decide
  have hqr : (compare q r).isLE := by decide
  have hr : r == certain := by decide
  have hq : q == q := by decide
  obtain ⟨-, -, -, -, -, htrans, -⟩ := comparison_is_total_order p q r
  obtain ⟨-, -, -, -, -, -, -, -, -, hcongr⟩ := comparison_is_total_order r q p
  obtain ⟨hcompare, -, hholds⟩ := hcongr certain q hr hq
  exact ⟨hpq, hqr, htrans hpq hqr, by decide, hr, hq, hcompare, hholds .gt⟩

end Probability

end BranchFlow
