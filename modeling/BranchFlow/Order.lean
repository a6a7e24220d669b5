import BranchFlow.Failure

/-!
# Sorting, representatives and bounds

Values of an ordered type may compare as equal and still differ, as `1/2` and `2/4` do.  So each
definition says which of them it keeps.
-/

namespace BranchFlow

variable {α : Type}

/-! ## Lists -/

/-- The list in ascending order, equal values in their old order. -/
def sorted [Ord α] (xs : List α) : List α := xs.mergeSort fun a b => (compare a b).isLE

/-- The list in descending order, equal values in their old order. -/
def sortedDescending [Ord α] (xs : List α) : List α := xs.mergeSort fun a b => (compare b a).isLE

/-- The first value of each run of equal neighbours, in a list that follows the
head `h` of the run before it. -/
def runHeadsAfter [BEq α] (h : α) : List α → List α
  | [] => []
  | x :: xs => if h == x then runHeadsAfter h xs else x :: runHeadsAfter x xs

/-- The first value of each run of equal neighbours. -/
def runHeads [BEq α] : List α → List α
  | [] => []
  | x :: xs => x :: runHeadsAfter x xs

/-- One value for each class of equal values, in ascending order: the one that
stands first in the list. -/
def representatives [Ord α] [BEq α] (xs : List α) : List α := runHeads (sorted xs)

/-! ## Bounds -/

/-- The value, or the bound it goes past.  The lower bound may not be above the
upper one. -/
def clamp [LE α] [LT α] [DecidableLE α] [DecidableLT α] (x lo hi : α) : Except Violation α :=
  if lo ≤ hi then .ok (if x < lo then lo else if hi < x then hi else x)
  else .error .boundsOutOfOrder

example : clamp 7 2 5 = .ok 5 ∧ clamp 3 5 2 = .error .boundsOutOfOrder := ⟨rfl, rfl⟩

/-! ## Operators -/

/-- The operators of an order. -/
inductive OrderOperator where
  /-- Less than. -/
  | lt
  /-- Less than or equal to. -/
  | le
  /-- Greater than. -/
  | gt
  /-- Greater than or equal to. -/
  | ge
deriving DecidableEq, Repr

namespace OrderOperator

/-- Whether an operator holds of two values that compare in this way. -/
def admits : OrderOperator → Ordering → Bool
  | lt, o => o.isLT
  | le, o => o.isLE
  | gt, o => o.isGT
  | ge, o => o.isGE

/-- The relation that an operator is written for. -/
def Relates [LE α] [LT α] : OrderOperator → α → α → Prop
  | lt, a, b => a < b
  | le, a, b => a ≤ b
  | gt, a, b => a > b
  | ge, a, b => a ≥ b

end OrderOperator

end BranchFlow
