import Mathlib.Algebra.Order.Field.Rat
import BranchFlow.Probability.Terms

/-!
# Values of pairs

A pair of numbers stands for a rational number, its quotient (`quotientOf`).  The terms of a
probability are such a pair.  Any two words may be offered as a probability, and what becomes of
them is their *verdict*: the number that they stand for or the cause for which they are refused.
-/

namespace BranchFlow

/-- The rational number that a pair stands for. -/
def quotientOf (p : ℕ × ℕ) : ℚ := (p.1 : ℚ) / p.2

/-- The quotient of the two words. -/
def Terms.exact (t : Terms) : ℚ := quotientOf (t.num.toNat, t.den.toNat)

namespace Probability

/-- The rational number that a probability stands for. -/
def exact (p : Probability) : ℚ := p.terms.exact

theorem exact_eq_div (p : Probability) : p.exact = (p.num.toNat : ℚ) / p.den.toNat := rfl

/-! ## Operators of the order -/

/-- The comparison by value, for types in which it may not be defined. -/
def partialCompare (p q : Probability) : Option Ordering := some (compare p q)

/-- Whether an operator holds of two probabilities. -/
def holds (op : OrderOperator) (p q : Probability) : Bool := (p.partialCompare q).any op.admits

end Probability

/-! ## What becomes of a pair -/

namespace InvalidRatio

/-- The violation of a caller who promised the pair to be a probability. -/
def violation : InvalidRatio → Violation
  | zeroDenominator => .zeroDenominator
  | numeratorExceedsDenominator n d => .aboveOne n d

/-- Whether a pair is refused for this cause.  No pair is refused for two. -/
def Refuses : InvalidRatio → Terms → Prop
  | zeroDenominator, t => t.den = 0
  | numeratorExceedsDenominator n d, t => t = ⟨n, d⟩ ∧ 0 < t.den ∧ t.den < t.num

end InvalidRatio

namespace Terms

/-- The probability with these terms, or why there is none. -/
def check (t : Terms) : Except InvalidRatio Probability := Probability.check t.num t.den

/-- The number that the terms stand for as a probability, or why there is none. -/
def verdict (t : Terms) : Except InvalidRatio ℚ := t.check.map Probability.exact

/-- Whether the checks of two pairs come out alike: probabilities of one value, in whatever terms,
or failures that are the same in all their numbers. -/
def checksLike (t u : Terms) : Bool := Probability.sameOutcome t.check u.check

end Terms

end BranchFlow
