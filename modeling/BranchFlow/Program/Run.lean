import BranchFlow.Program.Effect

/-!
# Runs of a program

A program is a list of steps.  Each step works on the state that the one before it left, and makes
an `Entry` of the run.  A run goes on after a step that failed, in whatever state the step left.
-/

namespace BranchFlow

/-- What one step of a run shows. -/
structure Entry (m n : Nat) where
  /-- The answer of the step, or why it failed. -/
  outcome : Except Failure Reply
  /-- The state after the step. -/
  state : State m n
  /-- The saturation of the step's scaling. -/
  saturation : Option Saturation

variable {m n : Nat}

/-- One step of a run. -/
def Step.entry (s : State m n) (t : Step m n) : Entry m n :=
  match t.perform.run ⟨s, []⟩ with
  | .ok r x => ⟨.ok r, x.value, x.reported.head?⟩
  | .error f x => ⟨.error f, x.value, x.reported.head?⟩

/-- The entry of a step shows its effect.  A step that fails leaves the state as it was and
reports nothing. -/
theorem Step.entry_eq (s : State m n) (t : Step m n) :
    t.entry s =
      match t.effect s with
      | .ok e => ⟨.ok e.reply, s.apply e, e.saturation⟩
      | .error f => ⟨.error f, s, none⟩ := by
  rw [entry, run_perform]
  cases t.effect s with
  | ok e => cases e with | mk w r x => cases x <;> rfl
  | error f => rfl

theorem Step.entry_of_ok {s : State m n} {t : Step m n} {e : Effect m n}
    (h : t.effect s = .ok e) : t.entry s = ⟨.ok e.reply, s.apply e, e.saturation⟩ := by
  rw [entry_eq, h]

theorem Step.entry_of_error {s : State m n} {t : Step m n} {f : Failure}
    (h : t.effect s = .error f) : t.entry s = ⟨.error f, s, none⟩ := by
  rw [entry_eq, h]

/-- The entries of a program run from a state. -/
def run (s : State m n) : List (Step m n) → List (Entry m n)
  | [] => []
  | t :: ts => t.entry s :: run (t.entry s).state ts

/-- The state in which a program ends. -/
def finalState (s : State m n) (ts : List (Step m n)) : State m n :=
  ts.foldl (fun s t => (t.entry s).state) s

/-! ## Runs of joined programs -/

theorem run_cons (s : State m n) (t : Step m n) (ts : List (Step m n)) :
    run s (t :: ts) = t.entry s :: run (t.entry s).state ts := rfl

theorem finalState_cons (s : State m n) (t : Step m n) (ts : List (Step m n)) :
    finalState s (t :: ts) = finalState (t.entry s).state ts := rfl

theorem finalState_append (s : State m n) (ts us : List (Step m n)) :
    finalState s (ts ++ us) = finalState (finalState s ts) us := List.foldl_append

/-! ## Steps that fail -/

/-- Whether the step of an entry failed. -/
def Entry.failed (e : Entry m n) : Bool :=
  match e.outcome with
  | .ok _ => false
  | .error _ => true

/-- Whether the arguments of a step break what it asks of them.  A scaling asks for a
denominator that is not zero, a division for a probability that is not zero, and the
two constructions of a probability for a pair that is one. -/
def Step.Misused (s : State m n) : Step m n → Prop
  | .scale _ _ den => den = 0
  | .divide _ _ p => (s.probability p).num = 0
  | .make _ num den | .check _ num den => den = 0 ∨ den < num
  | .setFrequency .. | .setProbability .. | .scaleBy .. | .multiply .. | .add .. | .sum ..
  | .complement .. | .max .. | .min .. | .compareFrequencies .. | .compareProbabilities ..
  | .relative _ | .showFrequency _ | .showProbability _ => False

/-- A program without the steps that fail when it is run from a state. -/
def withoutFailures (s : State m n) (ts : List (Step m n)) : List (Step m n) :=
  ((ts.zip (run s ts)).filter fun te => !te.2.failed).map Prod.fst

end BranchFlow
