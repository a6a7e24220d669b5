import Mathlib.Algebra.Ring.Nat
import BranchFlow.Frequency.Basic

/-!
# Saturating sums

A sum of a list is the exact one, held at the ceiling (`toNat_sum`).  The additions on the way fit
if and only if the whole sum does (`additionsFit_iff`).
-/

namespace BranchFlow.Frequency

/-- The exact sum of a list of frequencies. -/
def total (fs : List Frequency) : Nat := (fs.map toNat).sum

@[simp] theorem total_nil : total [] = 0 := rfl

@[simp] theorem total_cons (f : Frequency) (fs : List Frequency) :
    total (f :: fs) = f.toNat + total fs := rfl

/-! ## The sum in natural numbers -/

/-- Addition to a list of terms from the left, with any start. -/
theorem toNat_foldl_add (fs : List Frequency) (f : Frequency) :
    (fs.foldl (· + ·) f).toNat = min (UInt64.size - 1) (f.toNat + total fs) := by
  induction fs generalizing f with
  | nil =>
      have := f.toNat_lt
      rw [List.foldl_nil, total_nil]
      omega
  | cons g gs ih =>
      rw [List.foldl_cons, ih, toNat_add, total_cons]
      omega

/-- A sum is the exact one held at the ceiling. -/
theorem toNat_sum (fs : List Frequency) :
    (sum fs).toNat = min (UInt64.size - 1) (total fs) := by
  rw [sum, toNat_foldl_add, toNat_zero, Nat.zero_add]

theorem toNat_sum_of_lt {fs : List Frequency} (h : total fs < UInt64.size) :
    (sum fs).toNat = total fs := by
  rw [toNat_sum]
  omega

/-- The order of the terms does not matter, whatever they are added to. -/
theorem foldl_add_perm {fs gs : List Frequency} (h : fs.Perm gs) (f : Frequency) :
    fs.foldl (· + ·) f = gs.foldl (· + ·) f := by
  rw [← toNat_inj, toNat_foldl_add, toNat_foldl_add, total, total, (h.map toNat).sum_nat]

theorem sum_concat (fs : List Frequency) (f : Frequency) : sum (fs ++ [f]) = sum fs + f := by
  rw [sum, List.foldl_append]
  rfl

/-! ## Sums without saturation -/

/-- Whether no addition saturates when the list is summed from the left. -/
def SumsExactly (fs : List Frequency) : Prop :=
  ∀ gs, gs <+: fs → (sum gs).toNat = total gs

/-- If the whole sum fits, no partial sum saturates. -/
theorem sumsExactly_of_lt {fs : List Frequency} (h : total fs < UInt64.size) :
    SumsExactly fs := by
  rintro gs ⟨hs, rfl⟩
  rw [total, List.map_append, List.sum_append] at h
  exact toNat_sum_of_lt (Nat.lt_of_le_of_lt (Nat.le_add_right ..) h)

/-- The additions on the way fit if and only if the whole sum does. -/
theorem additionsFit_iff (f : Frequency) (gs : List Frequency) :
    f.AdditionsFit gs ↔ f.toNat + total gs < UInt64.size := by
  induction gs generalizing f with
  | nil => exact iff_of_true trivial f.toNat_lt
  | cons g gs ih =>
      rw [AdditionsFit, ih, toNat_add, total_cons]
      omega

/-! ## Bounds -/

theorem toNat_add_le (f g : Frequency) : (f + g).toNat ≤ f.toNat + g.toNat := by
  rw [toNat_add]
  exact Nat.min_le_right ..

theorem toNat_sum_le (fs : List Frequency) : (sum fs).toNat ≤ total fs := by
  rw [toNat_sum]
  exact Nat.min_le_right ..

/-! ## Monotonicity -/

theorem add_le_add {f g f' g' : Frequency} (hf : f ≤ f') (hg : g ≤ g') : f + g ≤ f' + g' := by
  rw [le_iff_toNat_le] at hf hg ⊢
  rw [toNat_add, toNat_add]
  omega

theorem sum_le_sum {fs gs : List Frequency} (h : total fs ≤ total gs) :
    sum fs ≤ sum gs := by
  rw [le_iff_toNat_le, toNat_sum, toNat_sum]
  omega

end BranchFlow.Frequency
