import BranchFlow.Order
import BranchFlow.Proofs.TotalOrder

/-!
# Extremes and bounds keep terms

`min`, `max` and `clamp` choose one of their arguments, in its own terms, so it matters which of two
equal ones they choose.  With its bounds in order, `clamp` is `min` with the upper bound in second
place, followed by `max` with the lower bound in first place (`clamp_eq_max_min`).
-/

namespace BranchFlow.Probability

variable {a b x lo hi : Probability}

/-! ## The less and the greater of two -/

theorem not_le_iff_lt : ¬ a ≤ b ↔ b < a := by
  rw [lt_iff_exact_lt, le_iff_exact_le, not_le]

theorem not_lt_iff_le : ¬ a < b ↔ b ≤ a := by
  rw [lt_iff_exact_lt, le_iff_exact_le, not_lt]

theorem max_eq_ite (a b : Probability) : max a b = if a ≤ b then b else a := rfl

theorem min_eq_ite (a b : Probability) : min a b = if a ≤ b then a else b := rfl

theorem min_max_eq_or_swap (a b : Probability) :
    (min a b, max a b) = (a, b) ∨ (min a b, max a b) = (b, a) := by
  rw [min_eq_ite, max_eq_ite]
  split
  · exact .inl rfl
  · exact .inr rfl

theorem exact_max (a b : Probability) : (max a b).exact = max a.exact b.exact := by
  rw [max_eq_ite, max_def, apply_ite exact]
  exact if_congr le_iff_exact_le rfl rfl

theorem exact_min (a b : Probability) : (min a b).exact = min a.exact b.exact := by
  rw [min_eq_ite, min_def, apply_ite exact]
  exact if_congr le_iff_exact_le rfl rfl

/-! ## Bounds -/

/-- Bounds in the wrong order are the only violation. -/
theorem clamp_eq_error_iff (v : Violation) :
    clamp x lo hi = .error v ↔ hi < lo ∧ v = .boundsOutOfOrder := by
  rw [← not_le_iff_lt, clamp]
  split
  next h => simp [h]
  next h => simp [h, eq_comm]

theorem clamp_of_lt (h : lo ≤ hi) (hx : x < lo) : clamp x lo hi = .ok lo := by
  rw [clamp, if_pos h, if_pos hx]

theorem clamp_of_gt (h : lo ≤ hi) (hx : hi < x) : clamp x lo hi = .ok hi := by
  have hlo : lo ≤ x := le_iff_exact_le.mpr
    ((le_iff_exact_le.mp h).trans (lt_iff_exact_lt.mp hx).le)
  rw [clamp, if_pos h, if_neg (not_lt_iff_le.mpr hlo), if_pos hx]

/-- A value within the bounds stays itself, also if it equals one of them in other terms. -/
theorem clamp_of_le_of_le (hlo : lo ≤ x) (hhi : x ≤ hi) : clamp x lo hi = .ok x := by
  have h : lo ≤ hi := le_iff_exact_le.mpr
    ((le_iff_exact_le.mp hlo).trans (le_iff_exact_le.mp hhi))
  rw [clamp, if_pos h, if_neg (not_lt_iff_le.mpr hlo), if_neg (not_lt_iff_le.mpr hhi)]

/-- With its bounds in order, `clamp` takes the less with one and the greater with the other. -/
theorem clamp_eq_max_min (h : lo ≤ hi) : clamp x lo hi = .ok (max lo (min x hi)) := by
  rw [max_eq_ite, min_eq_ite]
  by_cases hhi : x ≤ hi
  case neg => rw [if_neg hhi, if_pos h, clamp_of_gt h (not_le_iff_lt.mp hhi)]
  case pos =>
    rw [if_pos hhi]
    by_cases hlo : lo ≤ x
    case neg => rw [if_neg hlo, clamp_of_lt h (not_le_iff_lt.mp hlo)]
    case pos => rw [if_pos hlo, clamp_of_le_of_le hlo hhi]

/-- What is held between bounds is one of the three, in its own terms. -/
theorem max_min_eq_or (x lo hi : Probability) :
    max lo (min x hi) = x ∨ max lo (min x hi) = lo ∨ max lo (min x hi) = hi := by
  have hmin : min x hi = x ∨ min x hi = hi := ite_eq_or_eq ..
  have hmax : max lo (min x hi) = min x hi ∨ max lo (min x hi) = lo := ite_eq_or_eq ..
  rcases hmax with hx | hlo
  · rw [hx]
    exact hmin.imp_right .inr
  · exact .inr (.inl hlo)

theorem max_min_of_le_of_le (hlo : lo ≤ x) (hhi : x ≤ hi) : max lo (min x hi) = x := by
  rw [min_eq_ite, if_pos hhi, max_eq_ite, if_pos hlo]

theorem exact_max_min (x lo hi : Probability) :
    (max lo (min x hi)).exact = max lo.exact (min x.exact hi.exact) := by
  rw [exact_max, exact_min]

theorem exact_max_min_bounds (x : Probability) (h : lo.exact ≤ hi.exact) :
    lo.exact ≤ (max lo (min x hi)).exact ∧ (max lo (min x hi)).exact ≤ hi.exact := by
  rw [exact_max_min]
  exact ⟨le_max_left .., max_le h (min_le_right ..)⟩

theorem exact_max_min_mono {x' : Probability} (hx : x.exact ≤ x'.exact) :
    (max lo (min x hi)).exact ≤ (max lo (min x' hi)).exact := by
  rw [exact_max_min, exact_max_min]
  exact max_le_max_left _ (min_le_min_right _ hx)

/-! ## Terms are kept -/

/-- `min`, `max` and `clamp` keep terms.  The less and the greater of two probabilities are these
two, in one order or the other.  Holding a probability between bounds fails if and only if the
lower bound is above the upper one.  Otherwise it gives the greater of the lower bound and the
less of the probability and the upper bound, which is one of the three in its own terms and lies
between the bounds.  A probability within the bounds stays as it is, so doing it again changes
nothing, and a greater probability gives no less. -/
theorem clamp_keeps_terms (a b x lo hi : Probability) :
    ((min a b, max a b) = (a, b) ∨ (min a b, max a b) = (b, a)) ∧
    (∀ v, clamp x lo hi = .error v ↔ hi.exact < lo.exact ∧ v = .boundsOutOfOrder) ∧
    (lo.exact ≤ hi.exact → ∃ y, clamp x lo hi = .ok y ∧
      y = max lo (min x hi) ∧
      (y = x ∨ y = lo ∨ y = hi) ∧
      (lo.exact ≤ y.exact ∧ y.exact ≤ hi.exact) ∧
      (lo.exact ≤ x.exact → x.exact ≤ hi.exact → y = x) ∧
      clamp y lo hi = .ok y ∧
      ∀ x' : Probability, x.exact ≤ x'.exact →
        ∃ y', clamp x' lo hi = .ok y' ∧ y.exact ≤ y'.exact) := by
  refine ⟨min_max_eq_or_swap a b, fun v => ?_, fun h => ?_⟩
  · rw [clamp_eq_error_iff, lt_iff_exact_lt]
  · have hbounds : lo ≤ hi := le_iff_exact_le.mpr h
    obtain ⟨hlo, hhi⟩ := exact_max_min_bounds x h
    exact ⟨_, clamp_eq_max_min hbounds, rfl, max_min_eq_or x lo hi, ⟨hlo, hhi⟩,
      fun hxlo hxhi =>
        max_min_of_le_of_le (le_iff_exact_le.mpr hxlo) (le_iff_exact_le.mpr hxhi),
      clamp_of_le_of_le (le_iff_exact_le.mpr hlo) (le_iff_exact_le.mpr hhi),
      fun x' hx => ⟨_, clamp_eq_max_min hbounds, exact_max_min_mono hx⟩⟩

/-- A probability that equals the lower bound in other terms stays itself.  Between bounds that
equal each other, the one that is gone past is given. -/
theorem clamp_keeps_terms_at_bound :
    let half : Probability := { num := 1, den := 2 }
    let quarters : Probability := { num := 2, den := 4 }
    let third : Probability := { num := 1, den := 3 }
    half.exact ≤ certain.exact ∧ half.exact ≤ quarters.exact ∧ quarters.exact ≤ certain.exact ∧
      clamp quarters half certain = .ok quarters ∧
      clamp third half quarters = .ok half ∧ clamp certain half quarters = .ok quarters ∧
      clamp third certain half = .error .boundsOutOfOrder := by
  intro half quarters third
  have hhalf : half.exact ≤ certain.exact := le_iff_exact_le.mp (by decide)
  have hequal : half.exact ≤ quarters.exact := le_iff_exact_le.mp (by decide)
  have hquarters : quarters.exact ≤ certain.exact := le_iff_exact_le.mp (by decide)
  have hwrong : half.exact < certain.exact := lt_iff_exact_lt.mp (by decide)
  obtain ⟨-, -, hwithin⟩ := clamp_keeps_terms half quarters quarters half certain
  obtain ⟨-, -, hbelow⟩ := clamp_keeps_terms half quarters third half quarters
  obtain ⟨-, -, habove⟩ := clamp_keeps_terms half quarters certain half quarters
  obtain ⟨-, herror, -⟩ := clamp_keeps_terms half quarters third certain half
  obtain ⟨x, hx, -, -, -, hkept, -⟩ := hwithin hhalf
  obtain ⟨y, hy, hymax, -⟩ := hbelow hequal
  obtain ⟨z, hz, hzmax, -⟩ := habove hequal
  rw [hkept hequal hquarters] at hx
  rw [hymax] at hy
  rw [hzmax] at hz
  exact ⟨hhalf, hequal, hquarters, hx, hy, hz, (herror _).mpr ⟨hwrong, rfl⟩⟩

end BranchFlow.Probability
