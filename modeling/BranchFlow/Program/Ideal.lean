import Mathlib.Logic.Function.Basic
import BranchFlow.Probability.Value
import BranchFlow.Program.Run

/-!
# The ideal machine

The ideal machine runs the same programs on natural numbers of any size and on pairs of them, with
no condition on the pairs.  Nothing on it wraps around or is cut off.  The one bound is the ceiling
`2 ^ 64 - 1`, which is taken of exact results, and probabilities compare as rational numbers.
-/

namespace BranchFlow

/-! ## Ideal values -/

namespace Ideal

/-- The greatest frequency. -/
def ceiling : Nat := 2 ^ 64 - 1

/-- The report of a scaling whose exact result is above the ceiling. -/
structure Saturation where
  /-- The frequency before the scaling. -/
  frequency : Nat
  /-- The numerator of the ratio. -/
  num : Nat
  /-- The denominator of the ratio. -/
  den : Nat
deriving DecidableEq

/-- What scaling gives. -/
structure Scaled where
  /-- The scaled frequency. -/
  value : Nat
  /-- The remainder, or the denominator if the result is above the ceiling. -/
  remainder : Nat
  /-- The report. -/
  saturation : Option Saturation
deriving DecidableEq

/-- The floor of `f * num / den`, held at the ceiling. -/
def scale (f num den : Nat) : Scaled where
  value := min ceiling (f * num / den)
  remainder := if f * num / den < 2 ^ 64 then f * num % den else den
  saturation := if f * num / den < 2 ^ 64 then none else some ⟨f, num, den⟩

/-- What a step answers. -/
inductive Reply where
  /-- Nothing but that the step is done. -/
  | done
  /-- The remainder of a scaling. -/
  | remainder (r : Nat)
  /-- The order of two registers. -/
  | order (o : Ordering)
  /-- A number. -/
  | number (x : Binary64)
  /-- A text. -/
  | text (t : String)
deriving DecidableEq

/-- What the registers hold. -/
structure State (m n : Nat) where
  /-- The frequency registers. -/
  frequency : Fin m → Nat
  /-- The probability registers. -/
  probability : Fin n → Nat × Nat

/-- What one step of a run shows. -/
structure Entry (m n : Nat) where
  /-- The answer of the step, or why it failed. -/
  outcome : Except Failure Reply
  /-- The state after the step. -/
  state : State m n
  /-- The report of the step's scaling. -/
  saturation : Option Saturation := none

/-! ## Steps and runs -/

variable {m n : Nat}

namespace State

/-- The state with another frequency in one register. -/
def setFrequency (s : State m n) (i : Fin m) (f : Nat) : State m n :=
  { s with frequency := Function.update s.frequency i f }

/-- The state with another pair in one register. -/
def setProbability (s : State m n) (i : Fin n) (p : Nat × Nat) : State m n :=
  { s with probability := Function.update s.probability i p }

end State

/-- The entry of a step that assigns a frequency. -/
def Entry.frequency (s : State m n) (i : Fin m) (f : Nat) : Entry m n where
  outcome := .ok .done
  state := s.setFrequency i f

/-- The entry of a step that assigns a pair. -/
def Entry.probability (s : State m n) (i : Fin n) (p : Nat × Nat) : Entry m n where
  outcome := .ok .done
  state := s.setProbability i p

/-- The entry of a step that assigns a scaled frequency and answers. -/
def Entry.scaled (s : State m n) (i : Fin m) (x : Scaled) (r : Reply) : Entry m n where
  outcome := .ok r
  state := s.setFrequency i x.value
  saturation := x.saturation

/-- The entry of a step that only answers. -/
def Entry.answer (s : State m n) (r : Reply) : Entry m n where
  outcome := .ok r
  state := s

/-- The entry of a step that fails. -/
def Entry.failure (s : State m n) (f : Failure) : Entry m n where
  outcome := .error f
  state := s

/-- One step of the ideal machine. -/
def entry (s : State m n) : Step m n → Entry m n
  | .setFrequency t f => .frequency s t f.toNat
  | .setProbability t p => .probability s t (p.num.toNat, p.den.toNat)
  | .scale t num den =>
      if den.toNat = 0 then .failure s (.violation .scaleByZeroDenominator)
      else
        let x := scale (s.frequency t) num.toNat den.toNat
        .scaled s t x (.remainder x.remainder)
  | .scaleBy t p =>
      let x := scale (s.frequency t) (s.probability p).1 (s.probability p).2
      .scaled s t x (.remainder x.remainder)
  | .multiply t a p =>
      .scaled s t (scale (s.frequency a) (s.probability p).1 (s.probability p).2) .done
  | .divide t a p =>
      if (s.probability p).1 = 0 then .failure s (.violation .divisionByZeroProbability)
      else .scaled s t (scale (s.frequency a) (s.probability p).2 (s.probability p).1) .done
  | .add t a b => .frequency s t (min ceiling (s.frequency a + s.frequency b))
  | .sum t as => .frequency s t (min ceiling (as.map s.frequency).sum)
  | .make t num den =>
      if den.toNat = 0 then .failure s (.violation .zeroDenominator)
      else if den.toNat < num.toNat then .failure s (.violation (.aboveOne num den))
      else .probability s t (num.toNat, den.toNat)
  | .check t num den =>
      if den.toNat = 0 then .failure s (.invalid .zeroDenominator)
      else if den.toNat < num.toNat then
        .failure s (.invalid (.numeratorExceedsDenominator num den))
      else .probability s t (num.toNat, den.toNat)
  | .complement t a =>
      .probability s t ((s.probability a).2 - (s.probability a).1, (s.probability a).2)
  | .max t a b =>
      .probability s t <|
        if quotientOf (s.probability a) ≤ quotientOf (s.probability b) then s.probability b
        else s.probability a
  | .min t a b =>
      .probability s t <|
        if quotientOf (s.probability a) ≤ quotientOf (s.probability b) then s.probability a
        else s.probability b
  | .compareFrequencies a b =>
      .answer s (.order (compare (s.frequency a) (s.frequency b)))
  | .compareProbabilities a b =>
      .answer s (.order (compare (quotientOf (s.probability a)) (quotientOf (s.probability b))))
  | .relative a => .answer s (.number (.ofNat (s.frequency a) / .ofNat (2 ^ 14)))
  | .showFrequency a => .answer s (.text (toString (s.frequency a)))
  | .showProbability a =>
      .answer s <| .text <|
        toString (s.probability a).1 ++ " / " ++ toString (s.probability a).2 ++ " = "
          ++ Percentage.text (s.probability a).1 (s.probability a).2 ++ "%"

/-- The report of a step.  Only a scaling by a numerator and a denominator and a
division make one, and only if the exact quotient is `2 ^ 64` or more.  It has the
frequency before the step and the two numbers in the order in which they scale it. -/
def report (s : State m n) : Step m n → Option Saturation
  | .scale t num den =>
      if den.toNat ≠ 0 ∧ 2 ^ 64 * den.toNat ≤ s.frequency t * num.toNat then
        some ⟨s.frequency t, num.toNat, den.toNat⟩
      else none
  | .divide _ a p =>
      if (s.probability p).1 ≠ 0 ∧
          2 ^ 64 * (s.probability p).1 ≤ s.frequency a * (s.probability p).2 then
        some ⟨s.frequency a, (s.probability p).2, (s.probability p).1⟩
      else none
  | _ => none

/-- The entries of a program run from a state. -/
def run (s : State m n) : List (Step m n) → List (Entry m n)
  | [] => []
  | t :: ts => entry s t :: run (entry s t).state ts

end Ideal

/-! ## Words as numbers -/

variable {m n : Nat}

/-- The numbers of a saturation. -/
def Saturation.ideal (e : Saturation) : Ideal.Saturation :=
  ⟨e.frequency.toNat, e.ratio.num.toNat, e.ratio.den.toNat⟩

/-- The numbers of a reply. -/
def Reply.ideal : Reply → Ideal.Reply
  | .done => .done
  | .remainder r => .remainder r.toNat
  | .order o => .order o
  | .number x => .number x
  | .text t => .text t

/-- The numbers in the registers. -/
def State.ideal (s : State m n) : Ideal.State m n where
  frequency i := (s.frequency i).toNat
  probability i := ((s.probability i).num.toNat, (s.probability i).den.toNat)

/-- The numbers of an entry. -/
def Entry.ideal (e : Entry m n) : Ideal.Entry m n where
  outcome := e.outcome.map Reply.ideal
  state := e.state.ideal
  saturation := e.saturation.map Saturation.ideal

end BranchFlow
