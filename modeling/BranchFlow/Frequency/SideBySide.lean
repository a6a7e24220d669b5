import BranchFlow.Frequency.Scale
import BranchFlow.Probability.Value

/-!
# Scalings side by side

A branch with any number of edges multiplies one frequency by the probability of each edge
(`Frequency.split`).  Frequencies that meet in one block can all be scaled by the same ratio before
they are added (`Frequency.scaleEach`).
-/

namespace BranchFlow

namespace Scaled

/-- The values of a list of scalings. -/
def values (xs : List Scaled) : List Frequency := xs.map value

/-- The exact sum of what a list of scalings returns. -/
def remainderSum (xs : List Scaled) : Nat := (xs.map fun x => x.remainder.toNat).sum

@[simp] theorem values_cons (x : Scaled) (xs : List Scaled) :
    values (x :: xs) = x.value :: values xs := rfl

@[simp] theorem remainderSum_cons (x : Scaled) (xs : List Scaled) :
    remainderSum (x :: xs) = x.remainder.toNat + remainderSum xs := rfl

end Scaled

namespace Probability

/-- Whether these are the probabilities of all the edges of a branch, which sum to one
exactly. -/
def SumToOne (ps : List Probability) : Prop := (ps.map exact).sum = 1

instance : DecidablePred SumToOne := fun ps =>
  inferInstanceAs (Decidable ((ps.map exact).sum = 1))

end Probability

namespace Frequency

/-- The frequency multiplied by the probability of each edge of a branch. -/
def split (f : Frequency) (ps : List Probability) : List Scaled := ps.map f.multiply

/-- Each of several frequencies scaled by the same ratio. -/
def scaleEach (fs : List Frequency) (r : Ratio) : List Scaled := fs.map fun f => f.scale r

@[simp] theorem split_cons (f : Frequency) (p : Probability) (ps : List Probability) :
    f.split (p :: ps) = f.multiply p :: f.split ps := rfl

@[simp] theorem scaleEach_cons (f : Frequency) (fs : List Frequency) (r : Ratio) :
    scaleEach (f :: fs) r = f.scale r :: scaleEach fs r := rfl

end Frequency

end BranchFlow
