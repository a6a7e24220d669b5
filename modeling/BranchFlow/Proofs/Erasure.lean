import BranchFlow.Proofs.Widths

/-!
# Failures are atomic and can be erased

A step fails exactly on the arguments that it is misused on (`Step.failed_entry_iff`), and leaves
the state as it was, without a report (`Step.entry_of_failed`).  So the next step starts where the
failing one did, and a run makes the same entries with and without it (`run_withoutFailures`).
-/

namespace BranchFlow

variable {m n : Nat}

/-! ## When a step fails -/

namespace Step

variable {s : State m n} {t : Step m n}

theorem failed_of_error {f : Failure} (h : t.effect s = .error f) :
    (t.entry s).failed = true := by
  rw [entry_of_error h]
  rfl

theorem not_failed_of_ok {e : Effect m n} (h : t.effect s = .ok e) :
    ¬ (t.entry s).failed = true := by
  rw [entry_of_ok h]
  exact Bool.false_ne_true

/-- When a construction fails, from what it does with each kind of pair. -/
theorem failed_entry_iff_of_construction {num den : UInt32}
    (hzero : den = 0 → (t.entry s).failed = true)
    (habove : den ≠ 0 → den < num → (t.entry s).failed = true)
    (hvalid : den ≠ 0 → num ≤ den → ¬ (t.entry s).failed = true) :
    (t.entry s).failed ↔ den = 0 ∨ den < num := by
  by_cases hd : den = 0
  · exact iff_of_true (hzero hd) (.inl hd)
  · by_cases hn : den < num
    · exact iff_of_true (habove hd hn) (.inr hn)
    · exact iff_of_false (hvalid hd (UInt32.not_lt.mp hn)) (not_or.mpr ⟨hd, hn⟩)

/-- A step fails if and only if it is misused. -/
theorem failed_entry_iff (s : State m n) (t : Step m n) :
    (t.entry s).failed ↔ t.Misused s := by
  cases t with
  | scale t num den =>
      by_cases h : den = 0
      · subst h
        exact iff_of_true (failed_of_error rfl) rfl
      · exact iff_of_false (not_failed_of_ok (effect_scale h)) h
  | divide t a p =>
      by_cases h : (s.probability p).num = 0
      · exact iff_of_true (failed_of_error (effect_divide_of_eq h)) h
      · exact iff_of_false (not_failed_of_ok (effect_divide h)) h
  | make t num den =>
      refine failed_entry_iff_of_construction ?_ ?_ ?_
      · intro hd
        rw [hd]
        exact failed_of_error rfl
      · intro hd hn
        exact failed_of_error (effect_make_of_lt hd hn)
      · intro hd hn
        exact not_failed_of_ok (effect_make_of_le hd hn)
  | check t num den =>
      refine failed_entry_iff_of_construction ?_ ?_ ?_
      · intro hd
        rw [hd]
        exact failed_of_error rfl
      · intro hd hn
        exact failed_of_error (effect_check_of_lt hd hn)
      · intro hd hn
        exact not_failed_of_ok (effect_check_of_le hd hn)
  | _ => exact iff_of_false (not_failed_of_ok rfl) id

/-- A step that fails leaves the state as it was and reports nothing. -/
theorem entry_of_failed (h : (t.entry s).failed) :
    (t.entry s).state = s ∧ (t.entry s).saturation = none := by
  cases he : t.effect s with
  | ok e => exact absurd h (not_failed_of_ok he)
  | error f =>
      rw [entry_of_error he]
      exact ⟨rfl, rfl⟩

end Step

/-! ## Erasing the failing steps -/

section

variable {s : State m n} {t : Step m n} {ts : List (Step m n)}

theorem withoutFailures_cons_of_failed (h : (t.entry s).failed = true) :
    withoutFailures s (t :: ts) = withoutFailures s ts := by
  rw [withoutFailures, run_cons, List.zip_cons_cons, List.filter_cons_of_neg (by simp [h]),
    (Step.entry_of_failed h).1]
  rfl

theorem withoutFailures_cons_of_not_failed (h : (t.entry s).failed = false) :
    withoutFailures s (t :: ts) = t :: withoutFailures (t.entry s).state ts := by
  rw [withoutFailures, run_cons, List.zip_cons_cons, List.filter_cons_of_pos (by simp [h])]
  rfl

end

/-- Without the failing steps a run makes the entries of the others, in the same order. -/
theorem run_withoutFailures (s : State m n) (ts : List (Step m n)) :
    run s (withoutFailures s ts) = (run s ts).filter fun e => !e.failed := by
  induction ts generalizing s with
  | nil => rfl
  | cons t ts ih =>
      rw [run_cons]
      cases h : (t.entry s).failed with
      | true =>
          rw [withoutFailures_cons_of_failed h, ih, List.filter_cons_of_neg (by simp [h]),
            (Step.entry_of_failed h).1]
      | false =>
          rw [withoutFailures_cons_of_not_failed h, run_cons, ih,
            List.filter_cons_of_pos (by simp [h])]

/-- Failing steps leave no trace in the registers. -/
theorem finalState_withoutFailures (s : State m n) (ts : List (Step m n)) :
    finalState s (withoutFailures s ts) = finalState s ts := by
  induction ts generalizing s with
  | nil => rfl
  | cons t ts ih =>
      rw [finalState_cons]
      cases h : (t.entry s).failed with
      | true => rw [withoutFailures_cons_of_failed h, ih, (Step.entry_of_failed h).1]
      | false => rw [withoutFailures_cons_of_not_failed h, finalState_cons, ih]

/-- Failures are atomic and can be erased.  In any state a step fails if and only if it is
misused, and no word on the way to its result wraps around.  A step that fails changes no
register and reports nothing.  Without the steps that fail, a program has no failing step,
ends in the same state, and makes the entries of the other steps in the same order, with
the same answers and reports. -/
theorem failures_erasable (s : State m n) (t : Step m n) (ts : List (Step m n)) :
    ((t.entry s).failed ↔ t.Misused s) ∧
      t.InWidth s ∧
      ((t.entry s).failed → (t.entry s).state = s ∧ (t.entry s).saturation = none) ∧
      (∀ e ∈ run s (withoutFailures s ts), ¬ e.failed) ∧
      finalState s (withoutFailures s ts) = finalState s ts ∧
      run s (withoutFailures s ts) = (run s ts).filter fun e => !e.failed := by
  refine ⟨t.failed_entry_iff s, t.inWidth s, Step.entry_of_failed, fun e he => ?_,
    finalState_withoutFailures s ts, run_withoutFailures s ts⟩
  rw [run_withoutFailures, List.mem_filter] at he
  simpa using he.2

/-- The second step fails because the first one empties its divisor. -/
theorem failures_erasable_of_emptied_divisor :
    let s : State 1 2 :=
      ⟨#v[⟨100⟩], #v[{ num := 1, den := 1 }, { num := 1, den := 2 }]⟩
    let ts : List (Step 1 2) :=
      [.complement 0 0, .divide 0 0 0, .scale 0 3 0, .check 1 5 4, .divide 0 0 1]
    withoutFailures s ts = [.complement 0 0, .divide 0 0 1] ∧
      (Step.divide 0 0 0 : Step 1 2).Misused (finalState s [.complement 0 0]) ∧
      finalState s [.complement 0 0, .divide 0 0 1] = finalState s ts := by
  intro s ts
  have herased : withoutFailures s ts = [.complement 0 0, .divide 0 0 1] := by decide +kernel
  obtain ⟨hiff, -⟩ := failures_erasable (finalState s [.complement 0 0]) (.divide 0 0 0) []
  obtain ⟨-, -, -, -, hfinal, -⟩ := failures_erasable s (.divide 0 0 0) ts
  rw [herased] at hfinal
  exact ⟨herased, hiff.mp (by decide +kernel), hfinal⟩

end BranchFlow
