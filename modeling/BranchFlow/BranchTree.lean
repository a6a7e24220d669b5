import BranchFlow.Frequency.Scale

/-!
# Flow through a tree of branches

A `BranchTree` is a tree of two-way branches.  A frequency that enters a branch leaves it along two
edges, multiplied by the probability of the branch along the first and by its complement along the
second, both rounded down.  A branch is *uneven* for a frequency that does not divide exactly.
-/

namespace BranchFlow

/-- A tree of two-way branches. -/
inductive BranchTree where
  /-- The end of a path. -/
  | leaf
  /-- A branch that takes its first edge with probability `p`. -/
  | branch (p : Probability) (first second : BranchTree)

namespace BranchTree

/-- The frequencies that reach the leaves, from first to last. -/
def leaves : BranchTree → Frequency → List Frequency
  | leaf, f => [f]
  | branch p l r, f => l.leaves (f * p) ++ r.leaves (f * p.complement)

/-- The saturations on the way to the leaves. -/
def saturations : BranchTree → Frequency → List Saturation
  | leaf, _ => []
  | branch p l r, f =>
      (f.multiply p).saturation.toList ++ (f.multiply p.complement).saturation.toList
        ++ l.saturations (f * p) ++ r.saturations (f * p.complement)

/-- The number of branches that the frequency entering them does not divide at. -/
def unevenBranches : BranchTree → Frequency → Nat
  | leaf, _ => 0
  | branch p l r, f =>
      (if f.toNat * p.num.toNat % p.den.toNat = 0 then 0 else 1)
        + l.unevenBranches (f * p) + r.unevenBranches (f * p.complement)

/-- The number of branches. -/
def branches : BranchTree → Nat
  | leaf => 0
  | branch _ l r => l.branches + r.branches + 1

/-- A chain of branches, each on the first edge of the one before. -/
def chain : List Probability → BranchTree
  | [] => leaf
  | p :: ps => branch p (chain ps) leaf

end BranchTree

/-! ## A chain passed in place -/

/-- A chain of branches on the way along it. -/
structure Passage where
  /-- The frequency that is still on the chain. -/
  rest : Frequency
  /-- The sum of the frequencies that have left it. -/
  join : Frequency
deriving DecidableEq, Repr

namespace Passage

/-- The next branch of the chain.  What takes its second edge is added to what has
left, and what takes its first edge stays. -/
def pass (c : Passage) (p : Probability) : Passage where
  join := c.join + c.rest * p.complement
  rest := c.rest * p

/-- All branches of a chain, from the first to the last. -/
def along (f : Frequency) (ps : List Probability) : Passage := ps.foldl pass ⟨f, 0⟩

/-- The frequencies that leave a chain, from the first branch to the last. -/
def exits : Frequency → List Probability → List Frequency
  | _, [] => []
  | f, p :: ps => f * p.complement :: exits (f * p) ps

end Passage

end BranchFlow
