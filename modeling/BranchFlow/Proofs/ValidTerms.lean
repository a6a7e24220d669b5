import BranchFlow.Probability.Terms
import BranchFlow.Proofs.Scale

/-!
# Terms that are made are valid

The operations on `Terms` compute on two words and know nothing about them.  Whatever they make is
still valid, because the terms of a run are those of the probabilities that the same productions
make (`after_eq_map_terms`).  Pairs that are no probabilities are kept out by the constructions,
which make no terms of them.
-/

namespace BranchFlow

namespace Terms

/-! ## Orders, extremes and bounds -/

theorem compare_terms (p q : Probability) : compare p.terms q.terms = compare p q := rfl

theorem terms_max (p q : Probability) : (max p q).terms = max p.terms q.terms :=
  apply_ite Probability.terms (p ≤ q) q p

theorem terms_min (p q : Probability) : (min p q).terms = min p.terms q.terms :=
  apply_ite Probability.terms (p ≤ q) p q

theorem map_terms_clamp (x lo hi : Probability) :
    (clamp x lo hi).toOption.map Probability.terms
      = (clamp x.terms lo.terms hi.terms).toOption := by
  by_cases hbounds : lo ≤ hi
  · have hterms : lo.terms ≤ hi.terms := hbounds
    have hinner := apply_ite Probability.terms (hi < x) hi x
    have houter := apply_ite Probability.terms (x < lo) lo (if hi < x then hi else x)
    rw [hinner] at houter
    rw [clamp, clamp, if_pos hbounds, if_pos hterms]
    exact congrArg some houter
  · have hterms : ¬ lo.terms ≤ hi.terms := hbounds
    rw [clamp, clamp, if_neg hbounds, if_neg hterms]
    rfl

theorem map_terms_sorted (ps : List Probability) :
    (sorted ps).map Probability.terms = sorted (ps.map Probability.terms) :=
  List.map_mergeSort fun p _ q _ => congrArg Ordering.isLE (compare_terms p q).symm

/-! ## Constructions -/

namespace Production

theorem map_terms_make (n d : UInt32) (ts : List Terms) :
    (Probability.make n d).toOption.toList.map Probability.terms = (make n d).makes ts := by
  rw [makes]
  by_cases hd : d = 0
  · subst hd
    rfl
  · by_cases hn : d < n
    · rw [if_pos (.inr hn), Probability.make_of_lt hd hn]
      rfl
    · rw [if_neg (not_or.mpr ⟨hd, hn⟩), Probability.make_of_le hd (UInt32.not_lt.mp hn)]
      rfl

theorem map_terms_check (n d : UInt32) (ts : List Terms) :
    (Probability.check n d).toOption.toList.map Probability.terms = (check n d).makes ts := by
  rw [makes]
  by_cases hd : d = 0
  · subst hd
    rfl
  · rw [if_neg hd]
    by_cases hn : n ≤ d
    · rw [if_pos hn, Probability.check_of_le hd hn]
      rfl
    · rw [if_neg hn, Probability.check_of_lt hd (UInt32.not_le.mp hn)]
      rfl

/-! ## One production -/

/-- An operation on two values that may be there has the words of the one on terms. -/
theorem map_terms_pair {g : Probability → Probability → Probability}
    {h : Terms → Terms → Terms} (hgh : ∀ p q, (g p q).terms = h p.terms q.terms)
    (x y : Option Probability) :
    (do return g (← x) (← y) : Option Probability).toList.map Probability.terms
      = (do return h (← x.map Probability.terms) (← y.map Probability.terms) :
          Option Terms).toList := by
  cases x with
  | none => rfl
  | some p =>
      cases y with
      | none => rfl
      | some q => exact congrArg (fun t => [t]) (hgh p q)

/-- The same for a value and two bounds that may be there. -/
theorem map_terms_bounded (x lo hi : Option Probability) :
    (do (BranchFlow.clamp (← x) (← lo) (← hi)).toOption :
        Option Probability).toList.map Probability.terms
      = (do (BranchFlow.clamp (← x.map Probability.terms) (← lo.map Probability.terms)
            (← hi.map Probability.terms)).toOption : Option Terms).toList := by
  cases x with
  | none => rfl
  | some p =>
      cases lo with
      | none => rfl
      | some q =>
          cases hi with
          | none => rfl
          | some r =>
              show (BranchFlow.clamp p q r).toOption.toList.map Probability.terms
                = (BranchFlow.clamp p.terms q.terms r.terms).toOption.toList
              rw [← map_terms_clamp, Option.toList_map]

/-- The words of the probabilities that a production gives are the terms that it makes. -/
theorem map_terms_gives (ps : List Probability) (p : Production) :
    (p.gives ps).map Probability.terms = p.makes (ps.map Probability.terms) := by
  cases p with
  | make n d => exact map_terms_make n d _
  | check n d => exact map_terms_check n d _
  | impossible => rfl
  | certain => rfl
  | complement i =>
      rw [gives, makes, List.getElem?_map]
      cases ps[i]? with
      | none => rfl
      | some p => rfl
  | max i j =>
      rw [gives, makes, List.getElem?_map, List.getElem?_map]
      exact map_terms_pair terms_max _ _
  | min i j =>
      rw [gives, makes, List.getElem?_map, List.getElem?_map]
      exact map_terms_pair terms_min _ _
  | clamp x lo hi =>
      rw [gives, makes, List.getElem?_map, List.getElem?_map, List.getElem?_map]
      exact map_terms_bounded _ _ _
  | sort is =>
      rw [gives, makes, map_terms_sorted, List.map_filterMap]
      simp only [List.getElem?_map]

end Production

/-! ## Runs -/

/-- The terms that a run makes are those of the probabilities that it gives. -/
theorem after_eq_map_terms (ps : List Production) :
    after ps = (Probability.after ps).map Probability.terms := by
  have hstep : ∀ (qs : List Probability) (p : Production),
      qs.map Probability.terms ++ p.makes (qs.map Probability.terms)
        = (qs ++ p.gives qs).map Probability.terms := by
    intro qs p
    rw [List.map_append, p.map_terms_gives]
  show ps.foldl (fun ts p => ts ++ p.makes ts) ([].map Probability.terms)
    = (ps.foldl (fun qs p => qs ++ p.gives qs) []).map Probability.terms
  exact List.foldl_hom (List.map Probability.terms) hstep

theorem valid_terms (p : Probability) : p.terms.Valid := ⟨p.den_pos, p.num_le_den_toNat⟩

/-- Every production keeps terms valid.  All terms that a run makes, by operations on
words, are those of the probabilities that it gives.  So they are valid and their
complements do not wrap around.  Scaling a frequency by them does not fail and does not
saturate, leaves a remainder below the denominator and gives at most the frequency,
which stays as it is if and only if it is zero or the two words are equal. -/
theorem after_valid (ps : List Production) :
    after ps = (Probability.after ps).map Probability.terms ∧
      ∀ t ∈ after ps,
        t.Valid ∧
        (t.complement.num.toNat : Int) = (t.den.toNat : Int) - (t.num.toNat : Int) ∧
        ∃ p ∈ Probability.after ps, p.terms = t ∧ ∀ f : Frequency,
          f.scaleBy t.num t.den = .ok (f.multiply p) ∧
          (f.multiply p).saturation = none ∧
          (f.multiply p).remainder < t.den ∧
          f * p ≤ f ∧ (f * p = f ↔ f = 0 ∨ t.num = t.den) := by
  refine ⟨after_eq_map_terms ps, fun t ht => ?_⟩
  rw [after_eq_map_terms] at ht
  obtain ⟨p, hp, rfl⟩ := List.mem_map.mp ht
  have hcomplement : p.complement.num.toNat = p.den.toNat - p.num.toNat :=
    p.toNat_complement_num
  have hle := p.num_le_den_toNat
  refine ⟨valid_terms p, ?_, p, hp, rfl, fun f => ⟨?_, ?_, ?_, ?_, ?_⟩⟩
  · show (p.complement.num.toNat : Int) = (p.den.toNat : Int) - (p.num.toNat : Int)
    omega
  · exact f.scaleBy_of_ne p.num p.den_ne_zero
  · exact f.saturation_multiply p
  · exact f.remainder_multiply_lt p
  · exact f.mul_le p
  · exact f.mul_eq_self_iff p

/-- Two of the six productions fail.  The complement that is made keeps its own terms. -/
theorem after_valid_of_failing :
    let ps : List Production :=
      [.make 1 3, .make 5 4, .check 2 6, .complement 1, .clamp 0 2 1, .max 0 1]
    let t : Terms := ⟨4, 6⟩
    after ps = [⟨1, 3⟩, ⟨2, 6⟩, ⟨4, 6⟩, ⟨2, 6⟩] ∧ t ∈ after ps ∧ t.Valid ∧
      ∃ p : Probability, p.terms = t ∧ ∀ f : Frequency, f * p ≤ f := by
  intro ps t
  have hafter : after ps = [⟨1, 3⟩, ⟨2, 6⟩, ⟨4, 6⟩, ⟨2, 6⟩] := by decide
  have hmem : t ∈ after ps := by
    rw [hafter]
    decide
  obtain ⟨hvalid, -, p, -, hp, hmul⟩ := (after_valid ps).2 t hmem
  exact ⟨hafter, hmem, hvalid, p, hp, fun f => (hmul f).2.2.2.1⟩

end Terms

end BranchFlow
