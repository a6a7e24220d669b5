import BranchFlow.BranchTree
import BranchFlow.Proofs.Scale
import BranchFlow.Proofs.Sum

/-!
# Flow is conserved

The sum of the leaves and the number of uneven branches make up the frequency at the root
(`total_leaves_add_unevenBranches`).  The root fits in 64 bits, so every part of the sum does, and
no addition of the leaves saturates in whatever order they are added.
-/

namespace BranchFlow

open Frequency

namespace BranchTree

theorem saturations_eq_nil (t : BranchTree) (f : Frequency) : t.saturations f = [] := by
  induction t generalizing f with
  | leaf => rfl
  | branch p l r ihl ihr =>
      rw [saturations, saturation_multiply, saturation_multiply, ihl, ihr]
      rfl

/-- The leaves and the uneven branches make up the root, because a branch itself gives up the unit
that its floors miss. -/
theorem total_leaves_add_unevenBranches (t : BranchTree) (f : Frequency) :
    total (t.leaves f) + t.unevenBranches f = f.toNat := by
  induction t generalizing f with
  | leaf =>
      rw [leaves, total_cons, total_nil]
      rfl
  | branch p l r ihl ihr =>
      have hl := ihl (f * p)
      have hr := ihr (f * p.complement)
      have hnode := toNat_mul_add_toNat_mul_complement f p
      rw [total] at hl hr
      rw [leaves, unevenBranches, total, List.map_append, List.sum_append]
      omega

theorem unevenBranches_le_branches (t : BranchTree) (f : Frequency) :
    t.unevenBranches f ≤ t.branches := by
  induction t generalizing f with
  | leaf => exact Nat.le_refl 0
  | branch p l r ihl ihr =>
      have hl := ihl (f * p)
      have hr := ihr (f * p.complement)
      rw [unevenBranches, branches]
      split <;> omega

/-- The leaves together fit, in whatever order they are added. -/
theorem total_lt_of_perm {t : BranchTree} {f : Frequency} {fs : List Frequency}
    (h : fs.Perm (t.leaves f)) : total fs < UInt64.size := by
  have hroot := t.total_leaves_add_unevenBranches f
  have hlt := f.toNat_lt
  rw [total, (h.map toNat).sum_nat, ← total]
  omega

/-- The leaves, added in any order, and the uneven branches make up the root. -/
theorem toNat_sum_add_unevenBranches {t : BranchTree} {f : Frequency} {fs : List Frequency}
    (h : fs.Perm (t.leaves f)) : (sum fs).toNat + t.unevenBranches f = f.toNat := by
  rw [toNat_sum_of_lt (total_lt_of_perm h), total, (h.map toNat).sum_nat]
  exact t.total_leaves_add_unevenBranches f

end BranchTree

/-! ## Chains -/

namespace Passage

theorem rest_foldl_pass (c : Passage) (ps : List Probability) :
    (ps.foldl pass c).rest = ps.foldl (fun f p => f * p) c.rest := by
  induction ps generalizing c with
  | nil => rfl
  | cons p ps ih => exact ih (c.pass p)

theorem join_foldl_pass (c : Passage) (ps : List Probability) :
    (ps.foldl pass c).join = (exits c.rest ps).foldl (fun f g => f + g) c.join := by
  induction ps generalizing c with
  | nil => rfl
  | cons p ps ih => exact ih (c.pass p)

/-- What has left a chain is the sum of its exits. -/
theorem join_along (f : Frequency) (ps : List Probability) :
    (along f ps).join = sum (exits f ps) :=
  join_foldl_pass ⟨f, 0⟩ ps

/-- The exits of a chain and what stays on it are the leaves of the tree. -/
theorem exits_perm_leaves (f : Frequency) (ps : List Probability) :
    (exits f ps ++ [(along f ps).rest]).Perm ((BranchTree.chain ps).leaves f) := by
  rw [along, rest_foldl_pass]
  induction ps generalizing f with
  | nil => exact List.Perm.refl _
  | cons p ps ih =>
      rw [BranchTree.chain, BranchTree.leaves, exits]
      exact ((ih (f * p)).cons _).trans (List.perm_append_singleton _ _).symm

end Passage

theorem BranchTree.branches_chain (ps : List Probability) :
    (BranchTree.chain ps).branches = ps.length := by
  induction ps with
  | nil => rfl
  | cons p ps ih =>
      rw [BranchTree.chain, BranchTree.branches, ih]
      rfl

/-! ## Conservation -/

/-- Flow through a tree of branches is conserved.  Nothing saturates on the way to the
leaves or when they are added, in any order, and their sum is the frequency at the
root less one unit for each uneven branch.  A chain of branches passed in place is
such a tree. -/
theorem flow_conserved (f : Frequency) :
    (∀ t : BranchTree, t.saturations f = [] ∧
      ∀ fs, fs.Perm (t.leaves f) →
        SumsExactly fs ∧
          (sum fs).toNat + t.unevenBranches f = f.toNat ∧
          sum fs ≤ f ∧ f.toNat ≤ (sum fs).toNat + t.branches) ∧
    ∀ ps : List Probability,
      (Passage.exits f ps ++ [(Passage.along f ps).rest]).Perm ((BranchTree.chain ps).leaves f) ∧
        (BranchTree.chain ps).branches = ps.length ∧
        (Passage.along f ps).join = sum (Passage.exits f ps) ∧
        ((Passage.along f ps).join + (Passage.along f ps).rest).toNat
          + (BranchTree.chain ps).unevenBranches f = f.toNat := by
  refine ⟨fun t => ⟨t.saturations_eq_nil f, fun fs hfs => ?_⟩, fun ps => ?_⟩
  · have hroot := BranchTree.toNat_sum_add_unevenBranches hfs
    have huneven := t.unevenBranches_le_branches f
    refine ⟨sumsExactly_of_lt (BranchTree.total_lt_of_perm hfs), hroot, ?_, ?_⟩
    · rw [le_iff_toNat_le]
      omega
    · omega
  · have hperm := Passage.exits_perm_leaves f ps
    refine ⟨hperm, BranchTree.branches_chain ps, Passage.join_along f ps, ?_⟩
    rw [Passage.join_along, ← sum_concat]
    exact BranchTree.toNat_sum_add_unevenBranches hperm

end BranchFlow
