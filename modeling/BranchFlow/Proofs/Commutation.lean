import BranchFlow.Program.Footprint
import BranchFlow.Proofs.Sum

/-!
# Reordered programs end alike

The argument is about one register at a time.  A step has the same effect before and after one that
is independent of it, since it reads the same (`Step.Independent.effect_entry`), and a register that
the other step does not write holds in both orders what this effect makes of it.  Accumulations all
write one register, and leave the saturating sum there (`finalState_accumulations`).
-/

namespace BranchFlow

variable {m n : Nat}

/-! ## States that agree on a register -/

namespace State

variable {s s' s'' : State m n} {r : Register m n}

theorem Agrees.symm (h : s.Agrees s' r) : s'.Agrees s r := by
  cases r with
  | frequency i => exact Eq.symm h
  | probability i => exact Eq.symm h

theorem Agrees.trans (h : s.Agrees s' r) (h' : s'.Agrees s'' r) : s.Agrees s'' r := by
  cases r with
  | frequency i => exact Eq.trans h h'
  | probability i => exact Eq.trans h h'

theorem ext_agrees (h : ∀ r, s.Agrees s' r) : s = s' :=
  ext_read (fun i => h (.frequency i)) fun i => h (.probability i)

/-- States that agree on a register still do after the same assignment. -/
theorem Agrees.write (h : s.Agrees s' r) (w : Write m n) : (s.write w).Agrees (s'.write w) r := by
  cases w <;> cases r <;> simp_all [Agrees]

theorem Agrees.apply (h : s.Agrees s' r) (e : Effect m n) : (s.apply e).Agrees (s'.apply e) r := by
  unfold State.apply
  cases e.write with
  | none => exact h
  | some w => exact h.write w

end State

/-! ## Independent steps -/

namespace Step

variable {s s' : State m n} {t u : Step m n} {r : Register m n}

/-- A step shows its effect, whatever else the state holds. -/
theorem shown_entry_congr (h : t.effect s = t.effect s') :
    (t.entry s).shown = (t.entry s').shown := by
  rw [entry_eq, entry_eq, h]
  cases t.effect s' with
  | ok e => rfl
  | error f => rfl

/-- A step that has one effect on two states keeps what they agree on. -/
theorem agrees_entry_congr (h : t.effect s = t.effect s') (hr : s.Agrees s' r) :
    (t.entry s).state.Agrees (t.entry s').state r := by
  rw [entry_eq, entry_eq, h]
  cases t.effect s' with
  | ok e => exact hr.apply e
  | error f => exact hr

namespace Independent

/-- A step has the same effect after one that is independent of it. -/
theorem effect_entry (h : t.Independent u) (s : State m n) :
    t.effect (u.entry s).state = t.effect s :=
  t.effect_congr fun r hr => u.agrees_entry s fun hw => h.2 r hw (.inl hr)

/-- A register that the second step does not write is the same in both orders. -/
theorem agrees_of_writes_ne (h : t.Independent u) (s : State m n) (hr : u.writes ≠ some r) :
    (u.entry (t.entry s).state).state.Agrees (t.entry (u.entry s).state).state r := by
  have hlast := u.agrees_entry (t.entry s).state hr
  have hfirst := agrees_entry_congr (h.effect_entry s) (u.agrees_entry s hr)
  exact hlast.trans hfirst.symm

/-- Independent steps leave the same state in either order. -/
theorem state_comm (h : t.Independent u) (s : State m n) :
    (u.entry (t.entry s).state).state = (t.entry (u.entry s).state).state := by
  refine State.ext_agrees fun r => ?_
  by_cases hr : u.writes = some r
  · have ht : t.writes ≠ some r := fun ht => h.1 r ht (.inr hr)
    exact (h.symm.agrees_of_writes_ne s ht).symm
  · exact h.agrees_of_writes_ne s hr

/-- A step shows the same after one that is independent of it. -/
theorem shown_comm (h : t.Independent u) (s : State m n) :
    (t.entry (u.entry s).state).shown = (t.entry s).shown :=
  shown_entry_congr (h.effect_entry s)

end Independent

end Step

/-! ## Accumulations -/

/-- Accumulations leave the saturating sum of what they add and change nothing else. -/
theorem finalState_accumulations (s : State m n) {i : Fin m} {as : List (Fin m)}
    (hi : i ∉ as) :
    finalState s (as.map (.accumulate i))
      = s.write (.frequency i ((as.map s.frequency).foldl (· + ·) (s.frequency i))) := by
  induction as generalizing s with
  | nil => exact (s.write_frequency_self i).symm
  | cons a as ih =>
      have has := List.not_mem_of_not_mem_cons hi
      let s' := s.write (.frequency i (s.frequency i + s.frequency a))
      have hrest : as.map s'.frequency = as.map s.frequency := by
        refine List.map_congr_left fun j hj => ?_
        have hij : i ≠ j := fun hij => has (hij ▸ hj)
        simp [s', hij]
      have hfirst : s'.frequency i = s.frequency i + s.frequency a := by simp [s']
      calc finalState s ((a :: as).map (.accumulate i))
          = finalState s' (as.map (.accumulate i)) := rfl
        _ = s'.write (.frequency i ((as.map s.frequency).foldl (· + ·) (s'.frequency i))) := by
            rw [ih s' has, hrest]
        _ = s.write (.frequency i (((a :: as).map s.frequency).foldl (· + ·) (s.frequency i))) := by
            rw [hfirst, State.write_write_frequency]
            rfl

theorem finalState_accumulations_perm (s : State m n) {i : Fin m} {as bs : List (Fin m)}
    (hi : i ∉ as) (h : as.Perm bs) :
    finalState s (as.map (.accumulate i)) = finalState s (bs.map (.accumulate i)) := by
  have hi' : i ∉ bs := mt h.mem_iff.mpr hi
  rw [finalState_accumulations s hi, finalState_accumulations s hi',
    Frequency.foldl_add_perm (h.map s.frequency)]

/-! ## Reordered programs -/

theorem Swapped.finalState_eq {ts us : List (Step m n)} (h : Swapped ts us) (s : State m n) :
    finalState s ts = finalState s us := by
  cases h with
  | independent ts us h =>
      rw [finalState_append, finalState_append, finalState_cons, finalState_cons,
        finalState_cons, finalState_cons, h.state_comm]
  | accumulations ts us hi h =>
      rw [finalState_append, finalState_append, finalState_append, finalState_append,
        finalState_accumulations_perm _ hi h]

theorem Reordered.finalState_eq {ts us : List (Step m n)} (h : Reordered ts us)
    (s : State m n) : finalState s ts = finalState s us := by
  induction h with
  | refl => rfl
  | tail _ hswap ih => exact ih.trans (hswap.finalState_eq s)

/-- Steps that do not meet in a register commute.  In every state both orders of two
independent steps end in the same registers, and each of them shows the same answer, or
failure, and the same report in both orders.  Accumulations in one register, none of which
adds the register to itself, end in the same registers in every order.  So a program ends
in the same registers however it is reordered by such changes. -/
theorem reordered_programs_end_alike :
    (∀ t u : Step m n, t.Independent u → ∀ s : State m n,
      finalState s [t, u] = finalState s [u, t] ∧
        (t.entry (u.entry s).state).shown = (t.entry s).shown ∧
        (u.entry (t.entry s).state).shown = (u.entry s).shown) ∧
      (∀ (i : Fin m) (as bs : List (Fin m)), i ∉ as → as.Perm bs → ∀ s : State m n,
        finalState s (as.map (.accumulate i)) = finalState s (bs.map (.accumulate i))) ∧
      ∀ ts us : List (Step m n), Reordered ts us → ∀ s : State m n,
        finalState s ts = finalState s us :=
  ⟨fun _ _ h s => ⟨h.state_comm s, h.shown_comm s, h.symm.shown_comm s⟩,
    fun _ _ _ hi h s => finalState_accumulations_perm s hi h,
    fun _ _ h s => h.finalState_eq s⟩

/-- One of the independent steps fails and the other one saturates.  The sum of the
accumulations saturates at its last step in one order and at its first in the other. -/
theorem reordered_programs_end_alike_of_failing :
    let s : State 3 1 := ⟨#v[⟨5⟩, ⟨18446744073709551610⟩, ⟨7⟩], #v[.impossible]⟩
    let t : Step 3 1 := .divide 0 0 0
    let u : Step 3 1 := .scale 1 3 2
    let ts : List (Step 3 1) := [t, u, .accumulate 2 0, .accumulate 2 1]
    let us : List (Step 3 1) := [u, t, .accumulate 2 1, .accumulate 2 0]
    t.Independent u ∧ (t.entry s).failed ∧ (u.entry s).saturation.isSome ∧
      (t.entry (u.entry s).state).shown = (t.entry s).shown ∧
      finalState s [.accumulate 2 0, .accumulate 2 1]
        = finalState s [.accumulate 2 1, .accumulate 2 0] ∧
      finalState s ts = finalState s us := by
  intro s t u ts us
  obtain ⟨hcomm, hperm, hreorder⟩ := reordered_programs_end_alike (m := 3) (n := 1)
  have hind : t.Independent u := by decide
  have hswap : ([0, 1] : List (Fin 3)).Perm [1, 0] := by decide
  have hts : Reordered ts us :=
    .tail (.single (.independent [] _ hind)) (.accumulations [u, t] [] (by decide) hswap)
  exact ⟨hind, by decide +kernel, by decide +kernel, (hcomm t u hind s).2.1,
    hperm 2 _ _ (by decide) hswap s, hreorder ts us hts s⟩

end BranchFlow
