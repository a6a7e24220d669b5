import BranchFlow.Frequency.Basic
import BranchFlow.Probability.Basic

/-!
# Register files

A program works on `m` frequency registers and `n` probability registers.  A `State` is what they
hold, and a `Write` is the assignment of a value to one of them.
-/

namespace BranchFlow

/-- A register of either kind. -/
inductive Register (m n : Nat) where
  /-- A frequency register. -/
  | frequency (i : Fin m)
  /-- A probability register. -/
  | probability (i : Fin n)
deriving DecidableEq, Repr

/-- The assignment of a value to one register. -/
inductive Write (m n : Nat) where
  /-- A frequency for a frequency register. -/
  | frequency (i : Fin m) (f : Frequency)
  /-- A probability for a probability register. -/
  | probability (i : Fin n) (p : Probability)
deriving DecidableEq, Repr

/-- The register that is assigned to. -/
def Write.register {m n : Nat} : Write m n → Register m n
  | .frequency i _ => .frequency i
  | .probability i _ => .probability i

/-- What the registers hold. -/
structure State (m n : Nat) where
  /-- The frequency registers. -/
  frequencies : Vector Frequency m
  /-- The probability registers. -/
  probabilities : Vector Probability n
deriving DecidableEq, Repr

namespace State

variable {m n : Nat}

/-- The frequency in a register. -/
def frequency (s : State m n) (i : Fin m) : Frequency := s.frequencies[i]

/-- The probability in a register. -/
def probability (s : State m n) (i : Fin n) : Probability := s.probabilities[i]

/-- The state after an assignment. -/
def write (s : State m n) : Write m n → State m n
  | .frequency i f => { s with frequencies := s.frequencies.set i f }
  | .probability i p => { s with probabilities := s.probabilities.set i p }

/-! ## Reading after writing -/

/-- A register that is written to holds the value, and any other what it held. -/
@[simp] theorem frequency_write_frequency (s : State m n) (i j : Fin m) (f : Frequency) :
    (s.write (.frequency i f)).frequency j = if i = j then f else s.frequency j := by
  simp [write, frequency, Vector.getElem_set, Fin.ext_iff]

@[simp] theorem probability_write_probability (s : State m n) (i j : Fin n) (p : Probability) :
    (s.write (.probability i p)).probability j = if i = j then p else s.probability j := by
  simp [write, probability, Vector.getElem_set, Fin.ext_iff]

@[simp] theorem frequency_write_probability (s : State m n) (i : Fin n) (j : Fin m)
    (p : Probability) : (s.write (.probability i p)).frequency j = s.frequency j := rfl

@[simp] theorem probability_write_frequency (s : State m n) (i : Fin m) (j : Fin n)
    (f : Frequency) : (s.write (.frequency i f)).probability j = s.probability j := rfl

/-- A state is what can be read from it. -/
theorem ext_read {s t : State m n} (hf : ∀ i, s.frequency i = t.frequency i)
    (hp : ∀ i, s.probability i = t.probability i) : s = t := by
  obtain ⟨fs, ps⟩ := s
  obtain ⟨gs, qs⟩ := t
  congr 1
  · exact Vector.ext fun i hi => hf ⟨i, hi⟩
  · exact Vector.ext fun i hi => hp ⟨i, hi⟩

/-- An assignment of what a register holds changes nothing. -/
theorem write_frequency_self (s : State m n) (i : Fin m) :
    s.write (.frequency i (s.frequency i)) = s := by
  refine ext_read (fun j => ?_) fun j => rfl
  by_cases h : i = j <;> simp [h]

/-- Of two assignments to one register the second counts. -/
theorem write_write_frequency (s : State m n) (i : Fin m) (f g : Frequency) :
    (s.write (.frequency i f)).write (.frequency i g) = s.write (.frequency i g) := by
  refine ext_read (fun j => ?_) fun j => rfl
  by_cases h : i = j <;> simp [h]

end State

end BranchFlow
