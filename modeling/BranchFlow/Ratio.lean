/-!
# Ratios of two words

A `Ratio` is a pair of 32-bit numbers whose denominator is not zero.  The pair is never reduced, so
`1/2` and `2/4` are two ratios of one value.

The order compares the values, by cross products of 64 bits in which nothing is lost
(`compare_eq`).  Two equalities are kept apart.  `a = b` says that the terms agree.  `a == b` says
that the values agree, and is written separately from the order.
-/

namespace BranchFlow

/-- A numerator over a denominator that is not zero, not reduced. -/
structure Ratio where
  /-- The numerator. -/
  num : UInt32
  /-- The denominator. -/
  den : UInt32
  /-- The denominator is not zero. -/
  den_ne_zero : den ≠ 0 := by decide
deriving DecidableEq, Repr

namespace Ratio

theorem den_pos (a : Ratio) : 0 < a.den.toNat := by
  refine Nat.pos_of_ne_zero fun h => a.den_ne_zero ?_
  exact UInt32.toNat_inj.mp h

theorem toNat_ne_zero {n : UInt32} (h : n ≠ 0) : n.toNat ≠ 0 :=
  fun hz => h (UInt32.toNat_inj.mp hz)

/-- The ratio upside down, for a numerator that is not zero. -/
def swap (a : Ratio) (h : a.num ≠ 0) : Ratio := ⟨a.den, a.num, h⟩

/-! ## Comparison by cross products -/

/-- The two products whose comparison is that of the ratios. -/
def cross (a b : Ratio) : UInt64 × UInt64 :=
  (a.num.toUInt64 * b.den.toUInt64, b.num.toUInt64 * a.den.toUInt64)

/-- The order of the values. -/
def cmp (a b : Ratio) : Ordering := compare (a.cross b).1 (a.cross b).2

/-- Whether the values are equal. -/
def sameValue (a b : Ratio) : Bool := (a.cross b).1 == (a.cross b).2

instance : Ord Ratio := ⟨cmp⟩
instance : BEq Ratio := ⟨sameValue⟩

/-! ## The comparison in natural numbers -/

/-- A product of two 32-bit numbers does not wrap around in 64 bits. -/
theorem toNat_mul_toUInt64 (m n : UInt32) :
    (m.toUInt64 * n.toUInt64).toNat = m.toNat * n.toNat := by
  rw [UInt64.toNat_mul, UInt32.toNat_toUInt64, UInt32.toNat_toUInt64]
  refine Nat.mod_eq_of_lt ?_
  calc m.toNat * n.toNat ≤ (2 ^ 32 - 1) * (2 ^ 32 - 1) :=
        Nat.mul_le_mul (Nat.le_pred_of_lt m.toNat_lt) (Nat.le_pred_of_lt n.toNat_lt)
    _ < 2 ^ 64 := by decide

theorem toNat_cross_fst (a b : Ratio) :
    (a.cross b).1.toNat = a.num.toNat * b.den.toNat := toNat_mul_toUInt64 ..

theorem toNat_cross_snd (a b : Ratio) :
    (a.cross b).2.toNat = b.num.toNat * a.den.toNat := toNat_mul_toUInt64 ..

/-- Words compare as the numbers they stand for. -/
theorem compare_toNat (m n : UInt64) : compare m n = compare m.toNat n.toNat := by
  show compareOfLessAndEq m n = compareOfLessAndEq m.toNat n.toNat
  simp only [compareOfLessAndEq, UInt64.lt_iff_toNat_lt, UInt64.toNat_inj]

/-- The order is that of the exact cross products. -/
theorem compare_eq (a b : Ratio) :
    compare a b = compare (a.num.toNat * b.den.toNat) (b.num.toNat * a.den.toNat) := by
  rw [← toNat_cross_fst, ← toNat_cross_snd, ← compare_toNat]
  rfl

theorem isLE_compare_iff {a b : Ratio} :
    (compare a b).isLE ↔ a.num.toNat * b.den.toNat ≤ b.num.toNat * a.den.toNat := by
  rw [compare_eq]
  exact Nat.isLE_compare

/-- Equality of values is equality of the exact cross products. -/
theorem beq_iff (a b : Ratio) :
    a == b ↔ a.num.toNat * b.den.toNat = b.num.toNat * a.den.toNat := by
  rw [← toNat_cross_fst, ← toNat_cross_snd, UInt64.toNat_inj]
  exact beq_iff_eq (α := UInt64)

end Ratio

end BranchFlow
