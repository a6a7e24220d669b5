import BranchFlow.Frequency.Scale

/-!
# Operations in place

An operation in place works on a value that it may replace and on a record of the saturations
reported so far.  It answers or it fails, and a failure takes nothing back: it leaves what had been
assigned and reported by then.  So a failing operation keeps the value only if it fails before it
assigns, as scaling and division do (`run_scaleInPlace`, `run_divideInPlace`).
-/

namespace BranchFlow

/-- A value with the saturations reported so far, from the first to the last. -/
structure Traced (σ : Type) where
  /-- The value at hand. -/
  value : σ
  /-- The saturations so far. -/
  reported : List Saturation
deriving DecidableEq, Repr

/-- One more scaling, whose value takes the place of the frequency at hand. -/
def Traced.next (s : Traced Frequency) (x : Scaled) : Traced Frequency :=
  ⟨x.value, s.reported ++ x.saturation.toList⟩

/-- An operation on a value in place. -/
abbrev InPlace (ε σ : Type) := EStateM ε (Traced σ)

namespace InPlace

variable {ε σ τ α : Type}

/-- The value at hand. -/
def current : InPlace ε σ σ := do return (← get).value

/-- Replaces the value at hand. -/
def assign (a : σ) : InPlace ε σ Unit := modify fun s => { s with value := a }

/-- Adds a saturation to the record. -/
def report (e : Saturation) : InPlace ε σ Unit :=
  modify fun s => { s with reported := s.reported ++ [e] }

/-- An operation on a part of the value at hand.  What it leaves of the part is put back, also if
it fails. -/
def onPart (part : σ → τ) (putBack : σ → τ → σ) (op : InPlace ε τ α) : InPlace ε σ α := fun s =>
  match op ⟨part s.value, s.reported⟩ with
  | .ok a t => .ok a ⟨putBack s.value t.value, t.reported⟩
  | .error e t => .error e ⟨putBack s.value t.value, t.reported⟩

/-- An operation on a copy, which is what it answers with.  The value at hand stays. -/
def onCopy (a : τ) (op : InPlace ε τ Unit) : InPlace ε σ τ :=
  onPart (fun _ => a) (fun b _ => b) do
    op
    current

/-! ## Runs -/

variable {part : σ → τ} {putBack : σ → τ → σ} {op : InPlace ε τ α} {s : Traced σ} {t : Traced τ}

theorem run_current_bind (k : σ → InPlace ε σ α) : (current >>= k).run s = (k s.value).run s := rfl

theorem run_onPart_of_ok {a : α} (h : op.run ⟨part s.value, s.reported⟩ = .ok a t) :
    (onPart part putBack op).run s = .ok a ⟨putBack s.value t.value, t.reported⟩ := by
  rw [EStateM.run, onPart, show op ⟨part s.value, s.reported⟩ = .ok a t from h]

/-- An operation on a part that fails leaves the part as it is by then. -/
theorem run_onPart_of_error {e : ε} (h : op.run ⟨part s.value, s.reported⟩ = .error e t) :
    (onPart part putBack op).run s = .error e ⟨putBack s.value t.value, t.reported⟩ := by
  rw [EStateM.run, onPart, show op ⟨part s.value, s.reported⟩ = .error e t from h]

/-- An operation that answers on a copy changes nothing but the record. -/
theorem run_onCopy {a : τ} {op : InPlace ε τ Unit} (h : op.run ⟨a, s.reported⟩ = .ok () t) :
    (onCopy a op).run s = .ok t.value ⟨s.value, t.reported⟩ := by
  refine run_onPart_of_ok ?_
  rw [EStateM.run_bind, h]
  rfl

theorem run_discard {x : InPlace ε σ α} {a : α} {s' : Traced σ} (h : x.run s = .ok a s') :
    (discard x).run s = .ok () s' := by
  show EStateM.map (fun _ => ()) x s = _
  rw [EStateM.map, show x s = .ok a s' from h]

end InPlace

namespace Frequency

open InPlace

/-! ## Scaling -/

/-- Scales the frequency at hand and returns the remainder. -/
def scaleInPlace (num den : UInt32) : InPlace Violation Frequency UInt32 :=
  if h : den = 0 then throw .scaleByZeroDenominator
  else do
    let f ← current
    let r : Ratio := ⟨num, den, h⟩
    if (f.quotient r).toNat < UInt64.size then
      assign ⟨.ofBitVec ((f.quotient r).setWidth 64)⟩
      return .ofBitVec ((f.remainder r).setWidth 32)
    else
      report ⟨f, r⟩
      assign ceiling
      return den

/-- Scaling in place replaces the frequency by what scaling gives.  If it fails, it leaves
everything as it was. -/
theorem run_scaleInPlace (num den : UInt32) (s : Traced Frequency) :
    (scaleInPlace num den).run s =
      match s.value.scaleBy num den with
      | .ok x => .ok x.remainder (s.next x)
      | .error v => .error v s := by
  by_cases h : den = 0
  · rw [scaleInPlace, scaleBy, dif_pos h, dif_pos h]
    rfl
  · rw [scaleInPlace, dif_neg h, scaleBy_of_ne _ _ h]
    show _ = EStateM.Result.ok _ (s.next (s.value.scale ⟨num, den, h⟩))
    by_cases hfits : (s.value.quotient ⟨num, den, h⟩).toNat < UInt64.size
    · rw [scale, if_pos hfits, Traced.next, Option.toList_none, List.append_nil]
      exact congrFun (if_pos hfits) s
    · rw [scale, if_neg hfits]
      exact congrFun (if_neg hfits) s

theorem run_discard_scaleInPlace {num den : UInt32} (h : den ≠ 0) (s : Traced Frequency) :
    (discard (scaleInPlace num den)).run s = .ok () (s.next (s.value.scale ⟨num, den, h⟩)) := by
  refine run_discard (a := (s.value.scale ⟨num, den, h⟩).remainder) ?_
  rw [run_scaleInPlace, scaleBy_of_ne _ _ h]

/-! ## Probabilities -/

/-- Multiplies the frequency at hand. -/
def multiplyInPlace (p : Probability) : InPlace Violation Frequency Unit :=
  discard (scaleInPlace p.num p.den)

/-- A frequency multiplied by a probability, whatever the value at hand is. -/
def multiplied {σ : Type} (f : Frequency) (p : Probability) : InPlace Violation σ Frequency :=
  onCopy f (multiplyInPlace p)

/-- A frequency divided by a probability, whatever the value at hand is. -/
def divided {σ : Type} (f : Frequency) (p : Probability) : InPlace Violation σ Frequency :=
  if p.num = 0 then throw .divisionByZeroProbability
  else onCopy f (discard (scaleInPlace p.den p.num))

/-- Divides the frequency at hand. -/
def divideInPlace (p : Probability) : InPlace Violation Frequency Unit := do
  assign (← divided (← current) p)

/-- Multiplying in place does not fail, and reports no more than the scaling does. -/
theorem run_multiplyInPlace (p : Probability) (s : Traced Frequency) :
    (multiplyInPlace p).run s = .ok () (s.next (s.value.multiply p)) :=
  run_discard_scaleInPlace p.den_ne_zero s

/-- A product leaves the value at hand as it is. -/
theorem run_multiplied {σ : Type} (f : Frequency) (p : Probability) (s : Traced σ) :
    (multiplied f p).run s
      = .ok (f.multiply p).value ⟨s.value, s.reported ++ (f.multiply p).saturation.toList⟩ :=
  run_onCopy (run_multiplyInPlace p ⟨f, s.reported⟩)

/-- A quotient leaves the value at hand as it is, and if there is none the record too. -/
theorem run_divided {σ : Type} (f : Frequency) (p : Probability) (s : Traced σ) :
    (divided f p).run s =
      match f.divide p with
      | .ok x => .ok x.value ⟨s.value, s.reported ++ x.saturation.toList⟩
      | .error v => .error v s := by
  by_cases h : p.num = 0
  · rw [divided, if_pos h, divide_of_eq f h]
    rfl
  · rw [divided, if_neg h, divide_of_ne f h]
    exact run_onCopy (run_discard_scaleInPlace h ⟨f, s.reported⟩)

/-- Dividing in place replaces the frequency by its quotient.  If it fails, it leaves everything
as it was. -/
theorem run_divideInPlace (p : Probability) (s : Traced Frequency) :
    (divideInPlace p).run s =
      match s.value.divide p with
      | .ok x => .ok () (s.next x)
      | .error v => .error v s := by
  have hdivided := run_divided s.value p s
  show (do assign (← divided s.value p) : InPlace Violation Frequency Unit).run s = _
  rw [EStateM.run_bind, hdivided]
  cases s.value.divide p <;> rfl

end Frequency

end BranchFlow
