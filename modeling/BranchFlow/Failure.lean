/-!
# Why an operation gives no value

A *violation* is a broken precondition.  The caller promised an argument the operation can work with
and did not keep the promise.  An *invalid ratio* is an answer.  A pair of numbers was offered as a
probability to the checked construction, and it says why the pair is none.
-/

namespace BranchFlow

/-- A precondition that an argument does not meet. -/
inductive Violation where
  /-- A probability was asked for with denominator zero. -/
  | zeroDenominator
  /-- A probability was asked for with its numerator above its denominator. -/
  | aboveOne (num den : UInt32)
  /-- A frequency was to be scaled by a ratio with denominator zero. -/
  | scaleByZeroDenominator
  /-- A frequency was to be divided by a probability with numerator zero. -/
  | divisionByZeroProbability
  /-- A value was to be held between bounds that are in the wrong order. -/
  | boundsOutOfOrder
deriving DecidableEq, Repr

/-- The sentence that reports a violation. -/
def Violation.message : Violation → String
  | .zeroDenominator => "denominator cannot be 0"
  | .aboveOne n d =>
      "probability cannot be bigger than 1 (" ++ toString n.toNat ++ " / " ++ toString d.toNat
        ++ ")"
  | .scaleByZeroDenominator => "cannot scale a block frequency by N/0"
  | .divisionByZeroProbability => "cannot divide a block frequency by a zero probability"
  | .boundsOutOfOrder => "assertion failed: min <= max"

/-- Why a pair of numbers is not a probability. -/
inductive InvalidRatio where
  /-- The denominator is zero. -/
  | zeroDenominator
  /-- The denominator is not zero and the numerator is above it. -/
  | numeratorExceedsDenominator (num den : UInt32)
deriving DecidableEq, Repr

/-- The sentence that reports an invalid ratio. -/
def InvalidRatio.message : InvalidRatio → String
  | .zeroDenominator => "branch probability denominator must not be zero"
  | .numeratorExceedsDenominator n d =>
      "branch probability numerator " ++ toString n.toNat ++ " exceeds denominator "
        ++ toString d.toNat

/-- Either kind of failure, for what can end in both. -/
inductive Failure where
  /-- A precondition was broken. -/
  | violation (v : Violation)
  /-- A checked construction refused its arguments. -/
  | invalid (e : InvalidRatio)
deriving DecidableEq, Repr

end BranchFlow
