import Mathlib.Logic.Relation
import BranchFlow.Program.Run

/-!
# What a step reads and writes

The *footprint* of a step is the registers it may read and the one it may write, read off the step
alone.  A step that works in place reads its target, and counts as writing it even where it fails.
Independent neighbours may change places in a program, and so may *accumulations*, which add to one
register in place.
-/

namespace BranchFlow

variable {m n : Nat}

/-! ## Footprints -/

/-- The registers that a step reads. -/
def Step.reads : Step m n → List (Register m n)
  | .setFrequency .. | .setProbability .. | .make .. | .check .. => []
  | .scale t _ _ => [.frequency t]
  | .scaleBy t p => [.frequency t, .probability p]
  | .multiply _ a p | .divide _ a p => [.frequency a, .probability p]
  | .add _ a b | .compareFrequencies a b => [.frequency a, .frequency b]
  | .sum _ as => as.map .frequency
  | .complement _ a | .showProbability a => [.probability a]
  | .max _ a b | .min _ a b | .compareProbabilities a b => [.probability a, .probability b]
  | .relative a | .showFrequency a => [.frequency a]

/-- The register that a step writes, if it writes any. -/
def Step.writes : Step m n → Option (Register m n)
  | .setFrequency t _ | .scale t _ _ | .scaleBy t _ | .multiply t _ _ | .divide t _ _
  | .add t _ _ | .sum t _ => some (.frequency t)
  | .setProbability t _ | .make t _ _ | .check t _ _ | .complement t _ | .max t _ _
  | .min t _ _ => some (.probability t)
  | .compareFrequencies .. | .compareProbabilities .. | .relative _ | .showFrequency _
  | .showProbability _ => none

/-- Whether a step reads or writes a register. -/
def Step.Touches (t : Step m n) (r : Register m n) : Prop := r ∈ t.reads ∨ t.writes = some r

/-- Neither step writes a register that the other reads or writes. -/
def Step.Independent (t u : Step m n) : Prop :=
  (∀ r, t.writes = some r → ¬ u.Touches r) ∧ (∀ r, u.writes = some r → ¬ t.Touches r)

theorem Step.Independent.symm {t u : Step m n} (h : t.Independent u) : u.Independent t :=
  ⟨h.2, h.1⟩

instance (t : Step m n) (r : Register m n) : Decidable (t.Touches r) :=
  inferInstanceAs (Decidable (r ∈ t.reads ∨ t.writes = some r))

instance (t u : Step m n) : Decidable (t.Independent u) :=
  inferInstanceAs (Decidable
    ((∀ r ∈ t.writes, ¬ u.Touches r) ∧ ∀ r ∈ u.writes, ¬ t.Touches r))

/-! ## States that agree -/

/-- Whether two states hold the same in a register. -/
def State.Agrees (s s' : State m n) : Register m n → Prop
  | .frequency i => s.frequency i = s'.frequency i
  | .probability i => s.probability i = s'.probability i

/-- A step has the same effect on two states that agree on what it reads. -/
theorem Step.effect_congr {s s' : State m n} (t : Step m n)
    (h : ∀ r ∈ t.reads, s.Agrees s' r) : t.effect s = t.effect s' := by
  have hf : ∀ i, Register.frequency i ∈ t.reads → s.frequency i = s'.frequency i :=
    fun i hi => h _ hi
  have hp : ∀ i, Register.probability i ∈ t.reads → s.probability i = s'.probability i :=
    fun i hi => h _ hi
  cases t with
  | sum t as =>
      have : as.map s.frequency = as.map s'.frequency :=
        List.map_congr_left fun i hi => hf i (List.mem_map_of_mem hi)
      simp [effect, this]
  | _ => simp_all [effect, reads]

/-- What an effect assigns to is the register that the step writes. -/
theorem Step.register_of_effect {s : State m n} {t : Step m n} {e : Effect m n} {w : Write m n}
    (h : t.effect s = .ok e) (hw : e.write = some w) : t.writes = some w.register := by
  cases t <;> simp only [effect] at h
  case compareFrequencies | compareProbabilities | relative | showFrequency | showProbability =>
    cases h
    cases hw
  case scale | divide | make | check =>
    split at h
    · cases h
      cases hw
      rfl
    · cases h
  all_goals
    cases h
    cases hw
    rfl

/-- A step keeps every register that it does not write. -/
theorem Step.agrees_entry (s : State m n) (t : Step m n) {r : Register m n}
    (h : t.writes ≠ some r) : (t.entry s).state.Agrees s r := by
  have keep : ∀ w : Write m n, w.register ≠ r → (s.write w).Agrees s r := by
    intro w hw
    cases w <;> cases r <;> simp_all [State.Agrees, Write.register]
  rw [entry_eq]
  cases he : t.effect s with
  | error f => cases r <;> rfl
  | ok e =>
      show (s.apply e).Agrees s r
      unfold State.apply
      cases hw : e.write with
      | none => cases r <;> rfl
      | some w => exact keep w fun heq => h (heq ▸ register_of_effect he hw)

/-! ## Programs in another order -/

/-- What an entry shows besides the registers: the answer or the failure, and the report. -/
def Entry.shown (e : Entry m n) : Except Failure Reply × Option Saturation :=
  (e.outcome, e.saturation)

/-- The addition of one register to another in place. -/
def Step.accumulate (i a : Fin m) : Step m n := .add i i a

/-- One change in the order of a program. -/
inductive Swapped : List (Step m n) → List (Step m n) → Prop where
  /-- Two neighbours that are independent change places. -/
  | independent (ts us : List (Step m n)) {t u : Step m n} :
      t.Independent u → Swapped (ts ++ t :: u :: us) (ts ++ u :: t :: us)
  /-- Accumulations in one register change their order. -/
  | accumulations (ts us : List (Step m n)) {i : Fin m} {as bs : List (Fin m)} :
      i ∉ as → as.Perm bs →
      Swapped (ts ++ (as.map (.accumulate i) ++ us)) (ts ++ (bs.map (.accumulate i) ++ us))

/-- Any number of changes in the order of a program. -/
def Reordered : List (Step m n) → List (Step m n) → Prop := Relation.ReflTransGen Swapped

end BranchFlow
