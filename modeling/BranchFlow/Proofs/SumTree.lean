import BranchFlow.Frequency.SumTree
import BranchFlow.Proofs.Sum

/-!
# The order of additions does not matter

An addition that meets the ceiling loses what is above it, and where that happens depends on the
order in which frequencies are added.  All additions together still come to the exact sum of the
leaves, held at the ceiling (`SumTree.toNat_value`), since no leaf is negative.
-/

namespace BranchFlow

open Frequency

/-- An addition is the same in whatever way it is written. -/
@[simp] theorem Addition.apply_eq (a : Addition) (f g : Frequency) : a.apply f g = f + g := by
  cases a with
  | call => rfl
  | operator => rfl
  | inPlace => rfl
  | interface => rfl

/-- A sum is at the ceiling if and only if the exact one reaches it. -/
theorem Frequency.eq_ceiling_iff_of_toNat_eq {f : Frequency} {x : Nat}
    (h : f.toNat = min (UInt64.size - 1) x) : f = ceiling ↔ UInt64.size - 1 ≤ x := by
  rw [← toNat_inj, h, toNat_ceiling]
  omega

namespace SumTree

/-- A grouping comes to the exact sum of its leaves, held at the ceiling. -/
theorem toNat_value (t : SumTree) :
    t.value.toNat = min (UInt64.size - 1) (total t.leaves) := by
  induction t with
  | leaf f =>
      have := f.toNat_lt
      rw [value, leaves, total_cons, total_nil]
      omega
  | node a l r ihl ihr =>
      rw [total] at ihl ihr
      rw [value, leaves, Addition.apply_eq, toNat_add, ihl, ihr, total, List.map_append,
        List.sum_append]
      omega

theorem total_leaves_of_perm {t : SumTree} {fs : List Frequency} {k : Nat}
    (h : t.leaves.Perm (fs ++ List.replicate k 0)) : total t.leaves = total fs := by
  rw [total, (h.map toNat).sum_nat, List.map_append, List.sum_append, List.map_replicate,
    toNat_zero, List.sum_replicate_nat, Nat.mul_zero, Nat.add_zero, total]

/-- Once some of the leaves have met the ceiling, so has every grouping of all of them. -/
theorem value_eq_ceiling_of_part {t u : SumTree} {rest : List Frequency}
    (hperm : t.leaves.Perm (u.leaves ++ rest)) (hu : u.value = ceiling) :
    t.value = ceiling := by
  rw [eq_ceiling_iff_of_toNat_eq u.toNat_value] at hu
  rw [eq_ceiling_iff_of_toNat_eq t.toNat_value, total, (hperm.map toNat).sum_nat, List.map_append,
    List.sum_append]
  exact Nat.le_trans hu (Nat.le_add_right ..)

end SumTree

/-- Frequencies come to one sum in every order and grouping.  The sum of a list is the
exact sum held at the ceiling, whether the list holds the frequencies or only refers to
them.  Every grouping of additions, in whatever way each of them is written, comes to the
same if its leaves are the list in some order with any number of zeros in between.  If a
grouping of some of the leaves has met the ceiling, no order or grouping of the rest leads
away from it. -/
theorem sum_in_any_order (fs : List Frequency) :
    (sum fs).toNat = min (UInt64.size - 1) (total fs) ∧
      (∀ (ι : Type) (read : ι → Frequency) (refs : List ι), refs.map read = fs →
        sumOf read refs = sum fs) ∧
      ∀ (t : SumTree) (k : Nat), t.leaves.Perm (fs ++ List.replicate k 0) →
        t.value = sum fs ∧
          t.value.toNat = min (UInt64.size - 1) (total fs) ∧
          ∀ (u : SumTree) (rest : List Frequency), t.leaves.Perm (u.leaves ++ rest) →
            u.value = ceiling → t.value = ceiling := by
  refine ⟨toNat_sum fs, ?_, fun t k hperm => ?_⟩
  · rintro ι read refs rfl
    rfl
  · have htotal := SumTree.total_leaves_of_perm hperm
    have hvalue : t.value.toNat = min (UInt64.size - 1) (total fs) := by
      rw [t.toNat_value, htotal]
    refine ⟨?_, hvalue, fun u rest hpart hu => SumTree.value_eq_ceiling_of_part hpart hu⟩
    rw [← toNat_inj, hvalue, toNat_sum]

/-- The two last frequencies meet the ceiling, and what is added around them is lost. -/
theorem sum_in_any_order_of_saturated :
    let fs : List Frequency := [⟨3⟩, ⟨18446744073709551610⟩, ⟨7⟩]
    let store : Vector Frequency 3 := #v[⟨7⟩, ⟨3⟩, ⟨18446744073709551610⟩]
    let u : SumTree := .node .inPlace (.leaf ⟨7⟩) (.leaf ⟨18446744073709551610⟩)
    let t : SumTree :=
      .node .interface (.leaf 0) (.node .operator u (.node .call (.leaf 0) (.leaf ⟨3⟩)))
    sumOf store.get [1, 2, 0] = sum fs ∧ t.leaves.Perm (fs ++ List.replicate 2 0) ∧
      u.value = .ceiling ∧ t.value = sum fs ∧ t.value = .ceiling := by
  intro fs store u t
  have hleaves : t.leaves.Perm (fs ++ List.replicate 2 0) := by decide
  have hpart : t.leaves.Perm (u.leaves ++ [0, 0, ⟨3⟩]) := by decide
  have hu : u.value = .ceiling := by decide
  obtain ⟨-, hrefs, htree⟩ := sum_in_any_order fs
  obtain ⟨hsum, -, hceiling⟩ := htree t 2 hleaves
  exact ⟨hrefs _ store.get [1, 2, 0] (by decide), hleaves, hu, hsum, hceiling u _ hpart hu⟩

end BranchFlow
