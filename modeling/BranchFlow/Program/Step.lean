import BranchFlow.Frequency.InPlace
import BranchFlow.Program.State
import BranchFlow.Text

/-!
# Steps of a program

A `Step` names the registers it works on and the numbers it is given.  `Step.perform` is the step as
an operation in place on the registers.  It reads its sources before it assigns to its target, and a
failure keeps whatever the registers hold by then.
-/

namespace BranchFlow

/-- One operation on the registers. -/
inductive Step (m n : Nat) where
  /-- Assign a frequency. -/
  | setFrequency (target : Fin m) (f : Frequency)
  /-- Assign a probability. -/
  | setProbability (target : Fin n) (p : Probability)
  /-- Scale a frequency by a numerator and a denominator, and reply with the remainder. -/
  | scale (target : Fin m) (num den : UInt32)
  /-- Scale a frequency by a probability, and reply with the remainder. -/
  | scaleBy (target : Fin m) (factor : Fin n)
  /-- Multiply a frequency by a probability. -/
  | multiply (target source : Fin m) (factor : Fin n)
  /-- Divide a frequency by a probability. -/
  | divide (target source : Fin m) (divisor : Fin n)
  /-- Add two frequencies. -/
  | add (target left right : Fin m)
  /-- Add up any number of frequencies. -/
  | sum (target : Fin m) (sources : List (Fin m))
  /-- Make a probability of two numbers that are promised to be one. -/
  | make (target : Fin n) (num den : UInt32)
  /-- Make a probability of two numbers if they are one. -/
  | check (target : Fin n) (num den : UInt32)
  /-- Take the probability of the other edge. -/
  | complement (target source : Fin n)
  /-- Take the greater of two probabilities. -/
  | max (target left right : Fin n)
  /-- Take the less of two probabilities. -/
  | min (target left right : Fin n)
  /-- Reply with the order of two frequencies. -/
  | compareFrequencies (left right : Fin m)
  /-- Reply with the order of two probabilities. -/
  | compareProbabilities (left right : Fin n)
  /-- Reply with a frequency relative to that of the entry block. -/
  | relative (source : Fin m)
  /-- Reply with the text of a frequency. -/
  | showFrequency (source : Fin m)
  /-- Reply with the text of a probability. -/
  | showProbability (source : Fin n)
deriving DecidableEq, Repr

/-- What a step answers. -/
inductive Reply where
  /-- Nothing but that the step is done. -/
  | done
  /-- The remainder of a scaling. -/
  | remainder (r : UInt32)
  /-- The order of two registers. -/
  | order (o : Ordering)
  /-- A number. -/
  | number (x : Binary64)
  /-- A text. -/
  | text (t : String)
deriving DecidableEq, Repr

variable {m n : Nat}

/-! ## Operations on registers -/

namespace State

open InPlace

/-- An operation whose violations are failures of a step. -/
def orFail {α : Type} (op : InPlace Violation (State m n) α) : InPlace Failure (State m n) α :=
  op.adaptExcept .violation

/-- An operation on the frequency in a register. -/
def onFrequency {α : Type} (i : Fin m) (op : InPlace Violation Frequency α) :
    InPlace Failure (State m n) α :=
  orFail (onPart (·.frequency i) (fun s f => s.write (.frequency i f)) op)

/-- Makes an assignment that the registers determine. -/
def assigning (w : State m n → Write m n) : InPlace Failure (State m n) Reply := do
  let s ← current
  assign (s.write (w s))
  return .done

/-- Assigns to one register what is computed of the frequency in another, in place if the two are
the same. -/
def replacing (t a : Fin m) (op : InPlace Violation Frequency Unit)
    (value : Frequency → InPlace Violation (State m n) Frequency) :
    InPlace Failure (State m n) Reply :=
  if t = a then do
    onFrequency t op
    return .done
  else do
    let s ← current
    let f ← orFail (value (s.frequency a))
    assigning fun _ => .frequency t f

/-- Gives an answer that the registers determine. -/
def answering (r : State m n → Reply) : InPlace Failure (State m n) Reply := do
  return r (← current)

end State

/-! ## Steps -/

namespace Step

open InPlace State

/-- A step as an operation in place. -/
def perform : Step m n → InPlace Failure (State m n) Reply
  | setFrequency t f => assigning fun _ => .frequency t f
  | setProbability t p => assigning fun _ => .probability t p
  | scale t num den => do
      return .remainder (← onFrequency t (Frequency.scaleInPlace num den))
  | scaleBy t p => do
      let q := (← current).probability p
      return .remainder (← onFrequency t (Frequency.scaleInPlace q.num q.den))
  | multiply t a p => do
      let q := (← current).probability p
      replacing t a (Frequency.multiplyInPlace q) fun f => Frequency.multiplied f q
  | divide t a p => do
      let q := (← current).probability p
      replacing t a (Frequency.divideInPlace q) fun f => Frequency.divided f q
  | add t a b => assigning fun s => .frequency t (s.frequency a + s.frequency b)
  | sum t as => assigning fun s => .frequency t (.sum (as.map s.frequency))
  | make t num den =>
      match Probability.make num den with
      | .ok p => assigning fun _ => .probability t p
      | .error v => throw (.violation v)
  | check t num den =>
      match Probability.check num den with
      | .ok p => assigning fun _ => .probability t p
      | .error e => throw (.invalid e)
  | complement t a => assigning fun s => .probability t (s.probability a).complement
  | max t a b => assigning fun s => .probability t (Max.max (s.probability a) (s.probability b))
  | min t a b => assigning fun s => .probability t (Min.min (s.probability a) (s.probability b))
  | compareFrequencies a b =>
      answering fun s => .order (compare (s.frequency a) (s.frequency b))
  | compareProbabilities a b =>
      answering fun s => .order (compare (s.probability a) (s.probability b))
  | relative a => answering fun s => .number (s.frequency a).entryRelative
  | showFrequency a => answering fun s => .text (s.frequency a).text
  | showProbability a => answering fun s => .text (s.probability a).text

end Step

end BranchFlow
