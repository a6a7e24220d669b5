import BranchFlow.Failure
import BranchFlow.Ratio

/-!
# Branch probabilities

A `Probability` is a ratio that is at most one: how likely control leaves a branch along one of its
edges.  The bound is part of the type, so no operation has to check it again.

`make` is for a caller who promises a valid pair and takes a bad one for a violation.  `check` is
for a caller who does not know, and answers why a pair is no probability.

Probabilities compare by value.  Of two equal ones `max` gives the second and `min` the first, so
the two together give back both arguments, in their own terms.
-/

namespace BranchFlow

/-- A ratio that is at most one. -/
structure Probability extends Ratio where
  /-- The numerator is not above the denominator. -/
  num_le_den : num ≤ den := by decide
deriving DecidableEq, Repr

namespace Probability

theorem num_le_den_toNat (p : Probability) : p.num.toNat ≤ p.den.toNat :=
  UInt32.le_iff_toNat_le.mp p.num_le_den

/-! ## Construction -/

/-- The probability `num / den`, promised to be one. -/
def make (num den : UInt32) : Except Violation Probability :=
  if hd : den = 0 then .error .zeroDenominator
  else if hn : num ≤ den then .ok ⟨⟨num, den, hd⟩, hn⟩
  else .error (.aboveOne num den)

/-- The probability `num / den`, or why there is none. -/
def check (num den : UInt32) : Except InvalidRatio Probability :=
  if hd : den = 0 then .error .zeroDenominator
  else if hn : den < num then .error (.numeratorExceedsDenominator num den)
  else .ok ⟨⟨num, den, hd⟩, UInt32.not_lt.mp hn⟩

theorem make_zero (num : UInt32) : make num 0 = .error .zeroDenominator := rfl

theorem make_of_le {num den : UInt32} (hd : den ≠ 0) (hn : num ≤ den) :
    make num den = .ok ⟨⟨num, den, hd⟩, hn⟩ := by
  rw [make, dif_neg hd, dif_pos hn]

theorem make_of_lt {num den : UInt32} (hd : den ≠ 0) (hn : den < num) :
    make num den = .error (.aboveOne num den) := by
  rw [make, dif_neg hd, dif_neg (UInt32.not_le.mpr hn)]

theorem check_zero (num : UInt32) : check num 0 = .error .zeroDenominator := rfl

theorem check_of_le {num den : UInt32} (hd : den ≠ 0) (hn : num ≤ den) :
    check num den = .ok ⟨⟨num, den, hd⟩, hn⟩ := by
  rw [check, dif_neg hd, dif_neg (UInt32.not_lt.mpr hn)]

theorem check_of_lt {num den : UInt32} (hd : den ≠ 0) (hn : den < num) :
    check num den = .error (.numeratorExceedsDenominator num den) := by
  rw [check, dif_neg hd, dif_pos hn]

/-- The probability of an edge that is never taken. -/
def impossible : Probability := { num := 0, den := 1 }

/-- The probability of an edge that is always taken. -/
def certain : Probability := { num := 1, den := 1 }

/-- The probability of the other edge of a two-way branch. -/
def complement (p : Probability) : Probability where
  num := p.den - p.num
  den := p.den
  den_ne_zero := p.den_ne_zero
  num_le_den := by
    rw [UInt32.le_iff_toNat_le, UInt32.toNat_sub_of_le _ _ p.num_le_den]
    exact Nat.sub_le ..

/-- The difference in a complement does not wrap around. -/
theorem toNat_complement_num (p : Probability) :
    p.complement.num.toNat = p.den.toNat - p.num.toNat :=
  UInt32.toNat_sub_of_le _ _ p.num_le_den

@[simp] theorem complement_den (p : Probability) : p.complement.den = p.den := rfl

/-! ## Order and equality by value -/

instance : Ord Probability := ⟨fun p q => compare p.toRatio q.toRatio⟩
instance : BEq Probability := ⟨fun p q => p.toRatio == q.toRatio⟩

instance : LE Probability := leOfOrd
instance : LT Probability := ltOfOrd
instance : DecidableLE Probability := fun p q => inferInstanceAs (Decidable ((compare p q).isLE))
instance : DecidableLT Probability := fun p q => inferInstanceAs (Decidable (compare p q = .lt))

/-- The greater of two, and the second of two equal ones. -/
instance : Max Probability := maxOfLe

/-- The less of two, and the first of two equal ones. -/
instance : Min Probability := minOfLe

theorem le_iff {p q : Probability} :
    p ≤ q ↔ p.num.toNat * q.den.toNat ≤ q.num.toNat * p.den.toNat :=
  Ratio.isLE_compare_iff

theorem beq_iff {p q : Probability} :
    p == q ↔ p.num.toNat * q.den.toNat = q.num.toNat * p.den.toNat :=
  Ratio.beq_iff p.toRatio q.toRatio

/-- Equality by value is the one that the order gives. -/
theorem beq_iff_le_and_le {p q : Probability} : p == q ↔ p ≤ q ∧ q ≤ p := by
  rw [beq_iff, le_iff, le_iff]
  omega

theorem beq_symm {p q : Probability} (h : p == q) : q == p := beq_iff.mpr (beq_iff.mp h).symm

/-! ## Probabilities upside down -/

/-- Upside down, two probabilities are in the opposite order. -/
theorem cross_swap_le_iff {p q : Probability} (hp : p.num ≠ 0) (hq : q.num ≠ 0) :
    (q.swap hq).num.toNat * (p.swap hp).den.toNat
        ≤ (p.swap hp).num.toNat * (q.swap hq).den.toNat ↔ p ≤ q := by
  rw [le_iff, Nat.mul_comm p.num.toNat, Nat.mul_comm q.num.toNat]
  rfl

/-- Upside down, two probabilities of one value still have one value. -/
theorem cross_swap_eq {p q : Probability} (h : p == q) (hp : p.num ≠ 0) (hq : q.num ≠ 0) :
    (p.swap hp).num.toNat * (q.swap hq).den.toNat
      = (q.swap hq).num.toNat * (p.swap hp).den.toNat := by
  obtain ⟨hpq, hqp⟩ := beq_iff_le_and_le.mp h
  exact Nat.le_antisymm ((cross_swap_le_iff hq hp).mpr hqp) ((cross_swap_le_iff hp hq).mpr hpq)

/-! ## Outcomes of the checked construction -/

/-- Whether two checks came out alike: two probabilities of one value, or two
failures with the same cause. -/
def sameOutcome : Except InvalidRatio Probability → Except InvalidRatio Probability → Bool
  | .ok p, .ok q => p == q
  | .error e, .error f => decide (e = f)
  | _, _ => false

example : make 5 4 = .error (.aboveOne 5 4) := rfl
example : sameOutcome (check 1 2) (check 2 4) = true := by decide

end Probability

end BranchFlow
