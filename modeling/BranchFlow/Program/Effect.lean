import BranchFlow.Program.Step

/-!
# Effects of steps

The effect of a step that succeeds is at most one assignment, a reply, and the saturation of a
scaling, all computed from the state before the step.  The step itself works in place, and
`Step.run_perform` says that what it leaves behind is just this, and nothing if it fails.
-/

namespace BranchFlow

/-- What a step that succeeds does. -/
structure Effect (m n : Nat) where
  /-- The assignment. -/
  write : Option (Write m n) := none
  /-- The answer. -/
  reply : Reply := .done
  /-- The saturation of the step's scaling. -/
  saturation : Option Saturation := none
deriving DecidableEq, Repr

variable {m n : Nat}

namespace Effect

/-- The effect of assigning a frequency. -/
def frequency (i : Fin m) (f : Frequency) : Effect m n := { write := some (.frequency i f) }

/-- The effect of assigning a probability. -/
def probability (i : Fin n) (p : Probability) : Effect m n := { write := some (.probability i p) }

/-- The effect of assigning a scaled frequency. -/
def scaled (i : Fin m) (x : Scaled) : Effect m n where
  write := some (.frequency i x.value)
  saturation := x.saturation

/-- The same effect with the remainder for an answer. -/
def scaledReply (i : Fin m) (x : Scaled) : Effect m n :=
  { scaled i x with reply := .remainder x.remainder }

/-- The effect of a step that only answers. -/
def answer (r : Reply) : Effect m n := { reply := r }

end Effect

/-- The state with the assignment of an effect, if it has one. -/
def State.apply (s : State m n) (e : Effect m n) : State m n :=
  match e.write with
  | some w => s.write w
  | none => s

/-- The registers and the record after an effect. -/
def Traced.after (s : Traced (State m n)) (e : Effect m n) : Traced (State m n) :=
  ⟨s.value.apply e, s.reported ++ e.saturation.toList⟩

namespace Step

/-- The effect of a step on a state, or why it fails. -/
def effect (s : State m n) : Step m n → Except Failure (Effect m n)
  | .setFrequency t f => .ok (.frequency t f)
  | .setProbability t p => .ok (.probability t p)
  | .scale t num den =>
      match (s.frequency t).scaleBy num den with
      | .ok x => .ok (.scaledReply t x)
      | .error v => .error (.violation v)
  | .scaleBy t p => .ok (.scaledReply t ((s.frequency t).multiply (s.probability p)))
  | .multiply t a p => .ok (.scaled t ((s.frequency a).multiply (s.probability p)))
  | .divide t a p =>
      match (s.frequency a).divide (s.probability p) with
      | .ok x => .ok (.scaled t x)
      | .error v => .error (.violation v)
  | .add t a b => .ok (.frequency t (s.frequency a + s.frequency b))
  | .sum t as => .ok (.frequency t (.sum (as.map s.frequency)))
  | .make t num den =>
      match Probability.make num den with
      | .ok p => .ok (.probability t p)
      | .error v => .error (.violation v)
  | .check t num den =>
      match Probability.check num den with
      | .ok p => .ok (.probability t p)
      | .error e => .error (.invalid e)
  | .complement t a => .ok (.probability t (s.probability a).complement)
  | .max t a b => .ok (.probability t (Max.max (s.probability a) (s.probability b)))
  | .min t a b => .ok (.probability t (Min.min (s.probability a) (s.probability b)))
  | .compareFrequencies a b => .ok (.answer (.order (compare (s.frequency a) (s.frequency b))))
  | .compareProbabilities a b =>
      .ok (.answer (.order (compare (s.probability a) (s.probability b))))
  | .relative a => .ok (.answer (.number (s.frequency a).entryRelative))
  | .showFrequency a => .ok (.answer (.text (s.frequency a).text))
  | .showProbability a => .ok (.answer (.text (s.probability a).text))

/-! ## Steps that can fail -/

section

variable {s : State m n} {num den : UInt32}

theorem effect_scale {i : Fin m} (h : den ≠ 0) :
    (Step.scale i num den).effect s
      = .ok (.scaledReply i ((s.frequency i).scale ⟨num, den, h⟩)) := by
  rw [effect, Frequency.scaleBy_of_ne _ _ h]

theorem effect_divide {i j : Fin m} {k : Fin n} (h : (s.probability k).num ≠ 0) :
    (Step.divide i j k).effect s
      = .ok (.scaled i ((s.frequency j).scale ((s.probability k).swap h))) := by
  rw [effect, Frequency.divide_of_ne _ h]

theorem effect_divide_of_eq {i j : Fin m} {k : Fin n} (h : (s.probability k).num = 0) :
    (Step.divide i j k).effect s = .error (.violation .divisionByZeroProbability) := by
  rw [effect, Frequency.divide_of_eq _ h]

theorem effect_make_of_lt {i : Fin n} (hd : den ≠ 0) (hn : den < num) :
    (Step.make i num den).effect s = .error (.violation (.aboveOne num den)) := by
  rw [effect, Probability.make_of_lt hd hn]

theorem effect_make_of_le {i : Fin n} (hd : den ≠ 0) (hn : num ≤ den) :
    (Step.make i num den).effect s = .ok (.probability i ⟨⟨num, den, hd⟩, hn⟩) := by
  rw [effect, Probability.make_of_le hd hn]

theorem effect_check_of_lt {i : Fin n} (hd : den ≠ 0) (hn : den < num) :
    (Step.check i num den).effect s
      = .error (.invalid (.numeratorExceedsDenominator num den)) := by
  rw [effect, Probability.check_of_lt hd hn]

theorem effect_check_of_le {i : Fin n} (hd : den ≠ 0) (hn : num ≤ den) :
    (Step.check i num den).effect s = .ok (.probability i ⟨⟨num, den, hd⟩, hn⟩) := by
  rw [effect, Probability.check_of_le hd hn]

end

end Step

/-! ## Steps in place have their effects -/

namespace State

open InPlace

variable {α : Type} {s t : Traced (State m n)} {a : α} {v : Violation}

theorem run_orFail_of_ok {op : InPlace Violation (State m n) α} (h : op.run s = .ok a t) :
    (orFail op).run s = .ok a t := by
  rw [EStateM.run, orFail, EStateM.adaptExcept, show op s = .ok a t from h]

theorem run_orFail_of_error {op : InPlace Violation (State m n) α} (h : op.run s = .error v t) :
    (orFail op).run s = .error (.violation v) t := by
  rw [EStateM.run, orFail, EStateM.adaptExcept, show op s = .error v t from h]

/-- An operation that scales a frequency in place scales the one in a register.  A failure that
keeps the frequency keeps the whole state. -/
theorem run_onFrequency (i : Fin m) {op : InPlace Violation Frequency α} {answer : Scaled → α}
    (g : Frequency → Except Violation Scaled)
    (hop : ∀ x, op.run x =
      match g x.value with
      | .ok y => .ok (answer y) (x.next y)
      | .error v => .error v x) :
    (onFrequency i op).run s =
      match g (s.value.frequency i) with
      | .ok y => .ok (answer y) (s.after (.scaled i y))
      | .error v => .error (.violation v) s := by
  have hrun := hop ⟨s.value.frequency i, s.reported⟩
  cases hg : g (s.value.frequency i) with
  | ok y =>
      rw [hg] at hrun
      rw [onFrequency, run_orFail_of_ok (run_onPart_of_ok hrun)]
      rfl
  | error v =>
      rw [hg] at hrun
      rw [onFrequency, run_orFail_of_error (run_onPart_of_error hrun), write_frequency_self]

theorem run_assigning (w : State m n → Write m n) :
    (assigning w).run s = .ok .done (s.after { write := some (w s.value) }) := by
  rw [Traced.after, Option.toList_none, List.append_nil]
  rfl

/-- If an operation in place and one on a copy have one result, so has the step that chooses
between them. -/
theorem run_replacing (t a : Fin m) {op : InPlace Violation Frequency Unit}
    {value : Frequency → InPlace Violation (State m n) Frequency}
    {g : Frequency → Except Violation Scaled}
    (hop : ∀ x, op.run x =
      match g x.value with
      | .ok y => .ok () (x.next y)
      | .error v => .error v x)
    (hvalue : ∀ f, (value f).run s =
      match g f with
      | .ok y => .ok y.value ⟨s.value, s.reported ++ y.saturation.toList⟩
      | .error v => .error v s) :
    (replacing t a op value).run s =
      match g (s.value.frequency a) with
      | .ok y => .ok .done (s.after (.scaled t y))
      | .error v => .error (.violation v) s := by
  unfold replacing
  split
  next h =>
    subst h
    rw [EStateM.run_bind, run_onFrequency t g hop]
    cases g (s.value.frequency t) <;> rfl
  next =>
    have hrun := hvalue (s.value.frequency a)
    rw [run_current_bind, EStateM.run_bind]
    cases hg : g (s.value.frequency a) with
    | ok y =>
        rw [hg] at hrun
        rw [run_orFail_of_ok hrun]
        rfl
    | error v =>
        rw [hg] at hrun
        rw [run_orFail_of_error hrun]

theorem run_answering (r : State m n → Reply) :
    (answering r).run s = .ok (r s.value) (s.after (.answer (r s.value))) := by
  rw [Traced.after, Effect.answer, Option.toList_none, List.append_nil]
  rfl

end State

namespace Step

open InPlace State

/-- A step that succeeds has its effect on the registers and on the record.  One that fails leaves
both as they were. -/
theorem run_perform (s : Traced (State m n)) (t : Step m n) :
    t.perform.run s =
      match t.effect s.value with
      | .ok e => .ok e.reply (s.after e)
      | .error f => .error f s := by
  cases t with
  | scale t num den =>
      rw [perform, EStateM.run_bind,
        run_onFrequency t (·.scaleBy num den) (Frequency.run_scaleInPlace num den), effect]
      cases (s.value.frequency t).scaleBy num den <;> rfl
  | scaleBy t p =>
      rw [perform, run_current_bind, EStateM.run_bind,
        run_onFrequency t (.ok <| ·.multiply (s.value.probability p)) fun x => ?_]
      · rfl
      · rw [Frequency.run_scaleInPlace, Frequency.scaleBy_of_ne _ _ (Ratio.den_ne_zero _)]
        rfl
  | multiply t a p =>
      rw [perform, run_current_bind]
      exact run_replacing (g := fun f => .ok (f.multiply (s.value.probability p))) t a
        (Frequency.run_multiplyInPlace _) fun f => Frequency.run_multiplied f _ s
  | divide t a p =>
      rw [perform, run_current_bind,
        run_replacing t a (Frequency.run_divideInPlace _) fun f => Frequency.run_divided f _ s, effect]
      cases (s.value.frequency a).divide (s.value.probability p) <;> rfl
  | make t num den =>
      rw [perform, effect]
      cases Probability.make num den with
      | ok p => exact run_assigning _
      | error v => rfl
  | check t num den =>
      rw [perform, effect]
      cases Probability.check num den with
      | ok p => exact run_assigning _
      | error e => rfl
  | compareFrequencies a b => exact run_answering _
  | compareProbabilities a b => exact run_answering _
  | relative a => exact run_answering _
  | showFrequency a => exact run_answering _
  | showProbability a => exact run_answering _
  | _ => exact run_assigning _

end Step

end BranchFlow
