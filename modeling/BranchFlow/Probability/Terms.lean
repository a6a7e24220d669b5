import BranchFlow.Order
import BranchFlow.Probability.Basic

/-!
# Terms without a promise

`Terms` is a pair of words that nobody vouches for.  Its operations are those of probabilities,
computed on the words alone: the complement subtracts and may wrap around, and the comparison
multiplies and is meaningless for a zero denominator.  A *production* makes terms from given numbers
or from terms that were made before.
-/

namespace BranchFlow

/-- Two words, neither of which is known to be anything. -/
structure Terms where
  /-- The numerator. -/
  num : UInt32
  /-- The denominator. -/
  den : UInt32
deriving DecidableEq, Repr

/-- The terms of a probability. -/
def Probability.terms (p : Probability) : Terms := ⟨p.num, p.den⟩

namespace Terms

/-- What makes two words the terms of a probability. -/
def Valid (t : Terms) : Prop := 1 ≤ t.den.toNat ∧ t.num.toNat ≤ t.den.toNat

/-! ## Operations on the words -/

/-- The difference of the words over the second. -/
def complement (t : Terms) : Terms := ⟨t.den - t.num, t.den⟩

instance : Ord Terms where
  compare t u := compare (t.num.toUInt64 * u.den.toUInt64) (u.num.toUInt64 * t.den.toUInt64)

instance : LE Terms := leOfOrd
instance : LT Terms := ltOfOrd
instance : DecidableLE Terms := fun t u => inferInstanceAs (Decidable ((compare t u).isLE))
instance : DecidableLT Terms := fun t u => inferInstanceAs (Decidable (compare t u = .lt))
instance : Max Terms := maxOfLe
instance : Min Terms := minOfLe

/-! ## Productions -/

/-- A way to make terms.  A number that stands for terms made before counts them
from zero. -/
inductive Production where
  /-- The terms of a probability that two numbers are promised to be. -/
  | make (num den : UInt32)
  /-- The terms of a probability that two numbers may be. -/
  | check (num den : UInt32)
  /-- The terms of the edge never taken. -/
  | impossible
  /-- The terms of the edge always taken. -/
  | certain
  /-- The complement of terms. -/
  | complement (i : Nat)
  /-- The greater of two. -/
  | max (i j : Nat)
  /-- The less of two. -/
  | min (i j : Nat)
  /-- One held between two others. -/
  | clamp (x lo hi : Nat)
  /-- Any number of them in ascending order. -/
  | sort (is : List Nat)

/-- What a production adds to the terms made before.  One that fails, or asks for
terms that are not there, adds nothing. -/
def Production.makes (ts : List Terms) : Production → List Terms
  | make n d => if d = 0 ∨ d < n then [] else [⟨n, d⟩]
  | check n d => if d = 0 then [] else if n ≤ d then [⟨n, d⟩] else []
  | impossible => [⟨0, 1⟩]
  | certain => [⟨1, 1⟩]
  | complement i => (ts[i]?.map Terms.complement).toList
  | max i j => (do return Max.max (← ts[i]?) (← ts[j]?) : Option Terms).toList
  | min i j => (do return Min.min (← ts[i]?) (← ts[j]?) : Option Terms).toList
  | clamp x lo hi =>
      (do (BranchFlow.clamp (← ts[x]?) (← ts[lo]?) (← ts[hi]?)).toOption : Option Terms).toList
  | sort is => sorted (is.filterMap (ts[·]?))

/-- All the terms that a list of productions makes, in the order in which they are
made. -/
def after : List Production → List Terms :=
  List.foldl (fun ts p => ts ++ p.makes ts) []

/-- What a production adds to the probabilities made before. -/
def Production.gives (ps : List Probability) : Production → List Probability
  | make n d => (Probability.make n d).toOption.toList
  | check n d => (Probability.check n d).toOption.toList
  | impossible => [.impossible]
  | certain => [.certain]
  | complement i => (ps[i]?.map Probability.complement).toList
  | max i j => (do return Max.max (← ps[i]?) (← ps[j]?) : Option Probability).toList
  | min i j => (do return Min.min (← ps[i]?) (← ps[j]?) : Option Probability).toList
  | clamp x lo hi =>
      (do (BranchFlow.clamp (← ps[x]?) (← ps[lo]?) (← ps[hi]?)).toOption :
        Option Probability).toList
  | sort is => sorted (is.filterMap (ps[·]?))

end Terms

/-- All the probabilities that a list of productions makes, in the order in which they
are made. -/
def Probability.after : List Terms.Production → List Probability :=
  List.foldl (fun ps p => ps ++ p.gives ps) []

end BranchFlow
