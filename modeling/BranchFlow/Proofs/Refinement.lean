import BranchFlow.Program.Ideal
import BranchFlow.Proofs.Scale
import BranchFlow.Proofs.Sum
import BranchFlow.Proofs.TotalOrder
import BranchFlow.Proofs.Widths

/-!
# Words run like exact numbers

Read as numbers by `State.ideal` and `Entry.ideal`, the machine of words makes the same entries as
the ideal machine, step by step (`Step.ideal_entry`) and so along every run (`run_refines_ideal`).
-/

namespace BranchFlow

/-! ## Results as numbers -/

/-- The numbers of a ratio. -/
def Ratio.ideal (r : Ratio) : Nat × Nat := (r.num.toNat, r.den.toNat)

/-- The numbers of a scaling. -/
def Scaled.ideal (x : Scaled) : Ideal.Scaled :=
  ⟨x.value.toNat, x.remainder.toNat, x.saturation.map Saturation.ideal⟩

theorem Frequency.ideal_scale (f : Frequency) (r : Ratio) :
    (f.scale r).ideal = Ideal.scale f.toNat r.num.toNat r.den.toNat := by
  have hsize : UInt64.size = 2 ^ 64 := rfl
  have hvalue := toNat_scale_value f r
  rcases scale_cases f r with ⟨hlt, _, hr, hs⟩ | ⟨hle, hs⟩
  · rw [hsize] at hlt
    rw [Scaled.ideal, Ideal.scale, hvalue, hr, hs, if_pos hlt, if_pos hlt]
    rfl
  · have hnot : ¬ f.toNat * r.num.toNat / r.den.toNat < 2 ^ 64 := by omega
    rw [Scaled.ideal, Ideal.scale, hvalue, hs, if_neg hnot, if_neg hnot]
    rfl

/-- A scaling reports the numbers of a quotient that does not fit. -/
theorem Frequency.ideal_saturation_scale (f : Frequency) (r : Ratio) :
    (f.scale r).saturation.map Saturation.ideal
      = if 2 ^ 64 * r.den.toNat ≤ f.toNat * r.num.toNat then
          some ⟨f.toNat, r.num.toNat, r.den.toNat⟩
        else none := by
  rw [saturation_scale, apply_ite (Option.map Saturation.ideal)]
  rfl

/-! ## Orders as numbers -/

theorem Frequency.compare_toNat (f g : Frequency) : compare f.toNat g.toNat = compare f g :=
  (Ratio.compare_toNat f.units g.units).symm

namespace Probability

theorem ideal_max (p q : Probability) :
    (Max.max p q).ideal = if p.exact ≤ q.exact then q.ideal else p.ideal := by
  show (if p ≤ q then q else p).ideal = _
  by_cases h : p ≤ q
  · rw [if_pos h, if_pos (le_iff_exact_le.mp h)]
  · rw [if_neg h, if_neg (mt le_iff_exact_le.mpr h)]

theorem ideal_min (p q : Probability) :
    (Min.min p q).ideal = if p.exact ≤ q.exact then p.ideal else q.ideal := by
  show (if p ≤ q then p else q).ideal = _
  by_cases h : p ≤ q
  · rw [if_pos h, if_pos (le_iff_exact_le.mp h)]
  · rw [if_neg h, if_neg (mt le_iff_exact_le.mpr h)]

end Probability

/-! ## Assignments as numbers -/

namespace State

variable {m n : Nat}

theorem ideal_write_frequency (s : State m n) (i : Fin m) (f : Frequency) :
    (s.write (.frequency i f)).ideal = s.ideal.setFrequency i f.toNat := by
  unfold ideal Ideal.State.setFrequency
  congr 1
  funext j
  by_cases h : i = j
  · subst h
    simp
  · simp [h, Function.update_of_ne (Ne.symm h)]

theorem ideal_write_probability (s : State m n) (i : Fin n) (p : Probability) :
    (s.write (.probability i p)).ideal = s.ideal.setProbability i p.ideal := by
  unfold ideal Ideal.State.setProbability
  congr 1
  funext j
  by_cases h : i = j
  · subst h
    simp [Ratio.ideal]
  · simp [h, Function.update_of_ne (Ne.symm h)]

end State

/-! ## Entries as numbers -/

namespace Step

variable {m n : Nat} {s : State m n} {t : Step m n}

theorem ideal_entry_of_frequency {i : Fin m} {f : Frequency}
    (h : t.effect s = .ok (.frequency i f)) :
    (t.entry s).ideal = .frequency s.ideal i f.toNat := by
  rw [entry_of_ok h, Ideal.Entry.frequency, ← s.ideal_write_frequency]
  rfl

theorem ideal_entry_of_probability {i : Fin n} {p : Probability}
    (h : t.effect s = .ok (.probability i p)) :
    (t.entry s).ideal = .probability s.ideal i p.ideal := by
  rw [entry_of_ok h, Ideal.Entry.probability, ← s.ideal_write_probability]
  rfl

theorem ideal_entry_of_scaled {i : Fin m} {f : Frequency} {r : Ratio}
    (h : t.effect s = .ok (.scaled i (f.scale r))) :
    (t.entry s).ideal
      = .scaled s.ideal i (Ideal.scale f.toNat r.num.toNat r.den.toNat) .done := by
  rw [entry_of_ok h, ← f.ideal_scale, Ideal.Entry.scaled, Scaled.ideal,
    ← s.ideal_write_frequency]
  rfl

theorem ideal_entry_of_scaledReply {i : Fin m} {f : Frequency} {r : Ratio}
    (h : t.effect s = .ok (.scaledReply i (f.scale r))) :
    (t.entry s).ideal
      = .scaled s.ideal i (Ideal.scale f.toNat r.num.toNat r.den.toNat)
          (.remainder (Ideal.scale f.toNat r.num.toNat r.den.toNat).remainder) := by
  rw [entry_of_ok h, ← f.ideal_scale, Ideal.Entry.scaled, Scaled.ideal,
    ← s.ideal_write_frequency]
  rfl

theorem ideal_entry_of_answer {r : Reply} (h : t.effect s = .ok (.answer r)) :
    (t.entry s).ideal = .answer s.ideal r.ideal := by
  rw [entry_of_ok h]
  rfl

theorem ideal_entry_of_error {f : Failure} (h : t.effect s = .error f) :
    (t.entry s).ideal = .failure s.ideal f := by
  rw [entry_of_error h]
  rfl

/-- The entry of a construction, from what it does with each kind of pair. -/
theorem ideal_entry_of_construction {i : Fin n} {num den : UInt32} {zero above : Failure}
    (hzero : den = 0 → t.effect s = .error zero)
    (habove : den ≠ 0 → den < num → t.effect s = .error above)
    (hvalid : ∀ (hd : den ≠ 0) (hn : num ≤ den),
      t.effect s = .ok (.probability i ⟨⟨num, den, hd⟩, hn⟩)) :
    (t.entry s).ideal =
      if den.toNat = 0 then .failure s.ideal zero
      else if den.toNat < num.toNat then .failure s.ideal above
      else .probability s.ideal i (num.toNat, den.toNat) := by
  by_cases hd : den = 0
  · have hden : den.toNat = 0 := congrArg UInt32.toNat hd
    rw [if_pos hden, ideal_entry_of_error (hzero hd)]
  · rw [if_neg (Ratio.toNat_ne_zero hd)]
    by_cases hn : den < num
    · rw [if_pos (UInt32.lt_iff_toNat_lt.mp hn), ideal_entry_of_error (habove hd hn)]
    · rw [if_neg (mt UInt32.lt_iff_toNat_lt.mpr hn),
        ideal_entry_of_probability (hvalid hd (UInt32.not_lt.mp hn))]
      rfl

end Step

/-! ## One step -/

variable {m n : Nat}

/-- Read as numbers, one step of the machine of words is that of the ideal machine. -/
theorem Step.ideal_entry (s : State m n) (t : Step m n) :
    (t.entry s).ideal = Ideal.entry s.ideal t := by
  cases t with
  | setFrequency t f => exact ideal_entry_of_frequency rfl
  | setProbability t p => exact ideal_entry_of_probability rfl
  | scale t num den =>
      by_cases h : den = 0
      · subst h
        exact ideal_entry_of_error rfl
      · have hden : ¬ den.toNat = 0 := Ratio.toNat_ne_zero h
        rw [ideal_entry_of_scaledReply (effect_scale h), Ideal.entry, if_neg hden]
        rfl
  | scaleBy t p => exact ideal_entry_of_scaledReply rfl
  | multiply t a p => exact ideal_entry_of_scaled rfl
  | divide t a p =>
      by_cases h : (s.probability p).num = 0
      · have hnum : (s.ideal.probability p).1 = 0 := congrArg UInt32.toNat h
        rw [ideal_entry_of_error (effect_divide_of_eq h), Ideal.entry, if_pos hnum]
      · have hnum : ¬ (s.ideal.probability p).1 = 0 := Ratio.toNat_ne_zero h
        rw [ideal_entry_of_scaled (effect_divide h), Ideal.entry, if_neg hnum]
        rfl
  | add t a b =>
      rw [ideal_entry_of_frequency rfl, Frequency.toNat_add]
      rfl
  | sum t as =>
      rw [ideal_entry_of_frequency rfl, Frequency.toNat_sum, Frequency.total, List.map_map]
      rfl
  | make t num den =>
      refine ideal_entry_of_construction ?_ ?_ ?_
      · rintro rfl
        rfl
      · exact effect_make_of_lt
      · exact effect_make_of_le
  | check t num den =>
      refine ideal_entry_of_construction ?_ ?_ ?_
      · rintro rfl
        rfl
      · exact effect_check_of_lt
      · exact effect_check_of_le
  | complement t a =>
      rw [ideal_entry_of_probability rfl, Ratio.ideal, Probability.toNat_complement_num]
      rfl
  | max t a b =>
      rw [ideal_entry_of_probability rfl, Probability.ideal_max]
      rfl
  | min t a b =>
      rw [ideal_entry_of_probability rfl, Probability.ideal_min]
      rfl
  | compareFrequencies a b =>
      rw [ideal_entry_of_answer rfl, Reply.ideal, ← Frequency.compare_toNat]
      rfl
  | compareProbabilities a b =>
      rw [ideal_entry_of_answer rfl, Reply.ideal, Probability.compare_eq_compare_exact]
      rfl
  | relative a =>
      rw [ideal_entry_of_answer rfl]
      rfl
  | showFrequency a =>
      rw [ideal_entry_of_answer rfl]
      rfl
  | showProbability a =>
      rw [ideal_entry_of_answer rfl]
      rfl

/-! ## The reports of a step -/

/-- A step reports what the ideal machine reports. -/
theorem Step.ideal_saturation_entry (s : State m n) (t : Step m n) :
    (t.entry s).saturation.map Saturation.ideal = Ideal.report s.ideal t := by
  cases t with
  | scale t num den =>
      by_cases h : den = 0
      · subst h
        rfl
      · have hden := Ratio.toNat_ne_zero h
        rw [entry_of_ok (effect_scale h)]
        show ((s.frequency t).scale ⟨num, den, h⟩).saturation.map Saturation.ideal = _
        rw [Frequency.ideal_saturation_scale]
        simp only [Ideal.report, ne_eq, hden, not_false_eq_true, true_and]
        rfl
  | divide t a p =>
      by_cases h : (s.probability p).num = 0
      · have hnum : (s.ideal.probability p).1 = 0 := congrArg UInt32.toNat h
        rw [entry_of_error (effect_divide_of_eq h)]
        simp [Ideal.report, hnum]
      · have hnum : (s.ideal.probability p).1 ≠ 0 := Ratio.toNat_ne_zero h
        rw [entry_of_ok (effect_divide h)]
        show ((s.frequency a).scale ((s.probability p).swap h)).saturation.map Saturation.ideal = _
        rw [Frequency.ideal_saturation_scale]
        simp only [Ideal.report, ne_eq, hnum, not_false_eq_true, true_and]
        rfl
  | scaleBy t p | multiply t a p =>
      rw [entry_of_ok rfl]
      exact congrArg (Option.map _) (Frequency.saturation_multiply _ _)
  | make t num den | check t num den =>
      refine (congrArg Ideal.Entry.saturation (ideal_entry s _)).trans ?_
      rw [Ideal.entry]
      split_ifs <;> rfl
  | _ => rfl

/-! ## Runs -/

/-- The entries of a run, read as numbers, are those of the ideal machine. -/
theorem ideal_run (s : State m n) (ts : List (Step m n)) :
    (run s ts).map Entry.ideal = Ideal.run s.ideal ts := by
  induction ts generalizing s with
  | nil => rfl
  | cons t ts ih =>
      have hstate : (t.entry s).state.ideal = (Ideal.entry s.ideal t).state := by
        rw [← t.ideal_entry s]
        rfl
      rw [run_cons, List.map_cons, ih, t.ideal_entry, hstate]
      rfl

/-- A program runs on words as it does on numbers of any size.  Each step leaves the
registers, gives the answer and makes the report of the ideal machine, no other step
than a scaling or a division that does not fit reports anything, and no word on the
way to a result wraps around or is cut short. -/
theorem run_refines_ideal (s : State m n) (ts : List (Step m n)) :
    (run s ts).map Entry.ideal = Ideal.run s.ideal ts ∧
      ∀ us t vs, ts = us ++ t :: vs →
        (t.entry (finalState s us)).saturation.map Saturation.ideal
            = Ideal.report (finalState s us).ideal t ∧
          t.InWidth (finalState s us) :=
  ⟨ideal_run s ts, fun us t _ _ =>
    ⟨t.ideal_saturation_entry (finalState s us), t.inWidth (finalState s us)⟩⟩

end BranchFlow
