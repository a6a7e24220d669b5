import Mathlib.Algebra.Order.Field.Rat
import BranchFlow.Frequency.Scale

/-!
# Expressions over frequencies

An `Expr` is a computation with frequencies.  Its divisors are probabilities that are not zero, so
every expression has a value.  `Expr.value` rounds down and stops at the ceiling, and `Expr.exact`
does neither.
-/

namespace BranchFlow

/-- A computation with frequencies. -/
inductive Expr where
  /-- A given frequency. -/
  | given (f : Frequency)
  /-- The sum of two. -/
  | add (a b : Expr)
  /-- The sum of any number. -/
  | sum (es : List Expr)
  /-- One scaled by a ratio. -/
  | scale (a : Expr) (r : Ratio)
  /-- One multiplied by a probability. -/
  | multiply (a : Expr) (p : Probability)
  /-- One divided by a probability. -/
  | divide (a : Expr) (p : Probability) (h : p.num ≠ 0)

namespace Expr

mutual

/-- The frequency that an expression computes. -/
def value : Expr → Frequency
  | given f => f
  | add a b => a.value + b.value
  | sum es => .sum (values es)
  | scale a r => (a.value.scale r).value
  | multiply a p => a.value * p
  | divide a p h => (a.value.scale (p.swap h)).value

/-- The frequencies that a list of expressions computes. -/
def values : List Expr → List Frequency
  | [] => []
  | e :: es => e.value :: values es

end

/-! ## Exact values -/

mutual

/-- The exact value of an expression. -/
def exact : Expr → ℚ
  | given f => f.toNat
  | add a b => a.exact + b.exact
  | sum es => exactSum es
  | scale a r => a.exact * r.num.toNat / r.den.toNat
  | multiply a p => a.exact * p.num.toNat / p.den.toNat
  | divide a p _ => a.exact * p.den.toNat / p.num.toNat

/-- The exact sum of a list of expressions. -/
def exactSum : List Expr → ℚ
  | [] => 0
  | e :: es => e.exact + exactSum es

end

mutual

/-- Whether the computation of an expression neither rounds nor meets the ceiling. -/
def Lossless : Expr → Prop
  | given _ => True
  | add a b => a.Lossless ∧ b.Lossless ∧ a.value.toNat + b.value.toNat < UInt64.size
  | sum es => AllLossless es ∧ (0 : Frequency).AdditionsFit (values es)
  | scale a r => a.Lossless ∧ (a.value.scale r).remainder = 0
  | multiply a p => a.Lossless ∧ (a.value.multiply p).remainder = 0
  | divide a p h => a.Lossless ∧ (a.value.scale (p.swap h)).remainder = 0

/-- Whether the computations of a list of expressions are lossless. -/
def AllLossless : List Expr → Prop
  | [] => True
  | e :: es => e.Lossless ∧ AllLossless es

end

/-! ## Comparison place by place -/

mutual

/-- The first expression has the shape of the second, and each of its places is on
the side that makes its value less. -/
inductive Below : Expr → Expr → Prop where
  /-- A given frequency is at most the other. -/
  | given {f g : Frequency} : f ≤ g → Below (.given f) (.given g)
  /-- Sums of two are compared term by term. -/
  | add {a b c d : Expr} : Below a c → Below b d → Below (.add a b) (.add c d)
  /-- Sums of lists are compared term by term. -/
  | sum {es fs : List Expr} : AllBelow es fs → Below (.sum es) (.sum fs)
  /-- A probability that multiplies is at most the other. -/
  | multiply {a b : Expr} {p q : Probability} :
      Below a b → p ≤ q → Below (.multiply a p) (.multiply b q)
  /-- A probability that divides is at least the other. -/
  | divide {a b : Expr} {p q : Probability} {hp : p.num ≠ 0} {hq : q.num ≠ 0} :
      Below a b → q ≤ p → Below (.divide a p hp) (.divide b q hq)

/-- Two lists are as long as each other and compared place by place. -/
inductive AllBelow : List Expr → List Expr → Prop where
  /-- Nothing to compare. -/
  | nil : AllBelow [] []
  /-- The first expressions are compared, then the rest. -/
  | cons {a b : Expr} {es fs : List Expr} :
      Below a b → AllBelow es fs → AllBelow (a :: es) (b :: fs)

end

end Expr

end BranchFlow
