import Mathlib.Algebra.Ring.Nat
import BranchFlow.Frequency.InPlace

/-!
# One scaling after the other

A run of scalings works on one frequency.  It stands for one ratio, whose numerator and denominator
are products of any size.  A frequency that follows a path of branches is multiplied by the
probability of each edge, and a block in nested loops has the frequency of the outermost one,
divided by the probability of leaving a loop once for each level.
-/

namespace BranchFlow

/-! ## Runs of scalings -/

namespace Ratio

/-- The product of the numerators. -/
def numProd (rs : List Ratio) : Nat := (rs.map fun r => r.num.toNat).prod

/-- The product of the denominators. -/
def denProd (rs : List Ratio) : Nat := (rs.map fun r => r.den.toNat).prod

theorem numProd_cons (r : Ratio) (rs : List Ratio) :
    numProd (r :: rs) = r.num.toNat * numProd rs := rfl

theorem denProd_cons (r : Ratio) (rs : List Ratio) :
    denProd (r :: rs) = r.den.toNat * denProd rs := rfl

end Ratio

namespace Frequency

/-- The frequency at the end of a run of scalings. -/
def scaleAll (f : Frequency) (rs : List Ratio) : Frequency :=
  rs.foldl (fun g r => (g.scale r).value) f

/-- The values that a run of scalings returns, from the first to the last. -/
def returned : Frequency → List Ratio → List UInt32
  | _, [] => []
  | f, r :: rs => (f.scale r).remainder :: returned (f.scale r).value rs

/-! ## Chains of multiplications -/

/-- A frequency multiplied by one probability after the other. -/
def multiplyAll (f : Frequency) (ps : List Probability) : Frequency :=
  ps.foldl (fun g p => g * p) f

/-- Multiplies the frequency at hand by one probability after the other. -/
def multiplyAllInPlace (ps : List Probability) : InPlace Violation Frequency Unit :=
  ps.forM multiplyInPlace

/-- The floor of a frequency times the exact product of probabilities. -/
def productFloor (f : Frequency) (ps : List Probability) : Nat :=
  f.toNat * Ratio.numProd (ps.map Probability.toRatio)
    / Ratio.denProd (ps.map Probability.toRatio)

/-! ## One probability over and over -/

/-- A frequency after `k` multiplications by one probability, with all that they report. -/
def multiplyTimes (f : Frequency) (p : Probability) : Nat → Traced Frequency
  | 0 => ⟨f, []⟩
  | k + 1 =>
      let s := f.multiplyTimes p k
      s.next (s.value.multiply p)

/-- A frequency after `k` divisions by one probability, promised not to be zero, with all that they
report. -/
def divideTimes (f : Frequency) (p : Probability) : Nat → Except Violation (Traced Frequency)
  | 0 => .ok ⟨f, []⟩
  | k + 1 => do
      let s ← f.divideTimes p k
      let x ← s.value.divide p
      return s.next x

end Frequency

end BranchFlow
