import Mathlib.Data.List.Basic
import Mathlib.Logic.Relation
import BranchFlow.Proofs.TotalOrder
import BranchFlow.Proofs.ValidTerms

/-!
# The two constructions agree

The words of a pair are the terms of a probability, or there is one cause for which they are refused
(`Terms.check_cases`).  `make` asks the same two questions as `check` in the same order, and its
message tells the cause with its numbers (`InvalidRatio.message_violation_inj`).

Two answers are alike if they have one verdict (`Terms.checksLike_iff_verdict_eq`), so likeness is
an equivalence on all pairs.  Equality of cross products would be none, since 0/0 has those of every
pair.
-/

namespace BranchFlow

/-! ## Numbers in a text -/

theorem toDigits_inj {m n : Nat} (h : Nat.toDigits 10 m = Nat.toDigits 10 n) : m = n := by
  calc m = Nat.ofDigitChars 10 (Nat.toDigits 10 m) 0 := Nat.ofDigitChars_ten_toDigits.symm
    _ = Nat.ofDigitChars 10 (Nat.toDigits 10 n) 0 := by rw [h]
    _ = n := Nat.ofDigitChars_ten_toDigits

theorem takeWhile_toDigits_append (n : Nat) {c : Char} (hc : ¬ c.isDigit) (s : List Char) :
    (Nat.toDigits 10 n ++ c :: s).takeWhile Char.isDigit = Nat.toDigits 10 n := by
  rw [List.takeWhile_append_of_pos fun _ h =>
      Nat.isDigit_of_mem_toDigits (by decide) (by decide) h,
    List.takeWhile_cons_of_neg hc, List.append_nil]

/-- A number before a character that is no digit can be read off the text. -/
theorem toDigits_append_inj {m n : Nat} {c : Char} {s t : List Char} (hc : ¬ c.isDigit)
    (h : Nat.toDigits 10 m ++ c :: s = Nat.toDigits 10 n ++ c :: t) : m = n ∧ s = t := by
  have hdigits : Nat.toDigits 10 m = Nat.toDigits 10 n := by
    rw [← takeWhile_toDigits_append m hc s, h, takeWhile_toDigits_append n hc t]
  rw [hdigits, List.append_cancel_left_eq, List.cons_inj_right] at h
  exact ⟨toDigits_inj hdigits, h⟩

/-! ## Messages of violations -/

namespace Violation

variable {n d m k : UInt32}

theorem toList_message_aboveOne (n d : UInt32) :
    (aboveOne n d).message.toList
      = "probability cannot be bigger than 1 (".toList
        ++ (Nat.toDigits 10 n.toNat ++ ' ' :: ("/ ".toList
          ++ (Nat.toDigits 10 d.toNat ++ ')' :: []))) := by
  show ("probability cannot be bigger than 1 (" ++ toString n.toNat ++ " / " ++ toString d.toNat
    ++ ")").toList = _
  simp

/-- The numbers of a violation can be read off its message. -/
theorem eq_and_eq_of_message_aboveOne_eq (h : (aboveOne n d).message = (aboveOne m k).message) :
    n = m ∧ d = k := by
  have htext := congrArg String.toList h
  rw [toList_message_aboveOne, toList_message_aboveOne] at htext
  obtain ⟨hnum, hrest⟩ := toDigits_append_inj (by decide) (List.append_cancel_left htext)
  obtain ⟨hden, -⟩ := toDigits_append_inj (by decide) (List.append_cancel_left hrest)
  exact ⟨UInt32.toNat_inj.mp hnum, UInt32.toNat_inj.mp hden⟩

/-- The two messages differ in their first character. -/
theorem message_aboveOne_ne_message_zeroDenominator :
    (aboveOne n d).message ≠ zeroDenominator.message := by
  intro h
  have hhead : (aboveOne n d).message.toList.head? = some 'd' := by
    rw [h]
    rfl
  rw [toList_message_aboveOne] at hhead
  exact absurd hhead (by simp)

end Violation

/-! ## Causes -/

namespace InvalidRatio

variable {e f : InvalidRatio} {t u : Terms}

/-- The message of a violation tells the cause that it is made from. -/
theorem message_violation_inj (h : e.violation.message = f.violation.message) : e = f := by
  cases e with
  | zeroDenominator =>
      cases f with
      | zeroDenominator => rfl
      | numeratorExceedsDenominator m k =>
          exact absurd h.symm Violation.message_aboveOne_ne_message_zeroDenominator
  | numeratorExceedsDenominator n d =>
      cases f with
      | zeroDenominator => exact absurd h Violation.message_aboveOne_ne_message_zeroDenominator
      | numeratorExceedsDenominator m k =>
          obtain ⟨rfl, rfl⟩ := Violation.eq_and_eq_of_message_aboveOne_eq h
          rfl

namespace Refuses

/-- A pair is refused for one cause only. -/
theorem unique (he : e.Refuses t) (hf : f.Refuses t) : e = f := by
  cases e with
  | zeroDenominator =>
      cases f with
      | zeroDenominator => rfl
      | numeratorExceedsDenominator m k => exact absurd he (UInt32.pos_iff_ne_zero.mp hf.2.1)
  | numeratorExceedsDenominator n d =>
      cases f with
      | zeroDenominator => exact absurd hf (UInt32.pos_iff_ne_zero.mp he.2.1)
      | numeratorExceedsDenominator m k =>
          cases he.1.symm.trans hf.1
          rfl

theorem not_valid (h : e.Refuses t) : ¬ t.Valid := by
  rintro ⟨hden, hnum⟩
  cases e with
  | zeroDenominator => exact absurd (congrArg UInt32.toNat h) (Nat.pos_iff_ne_zero.mp hden)
  | numeratorExceedsDenominator n d =>
      exact absurd hnum (Nat.not_le.mpr (UInt32.lt_iff_toNat_lt.mp h.2.2))

end Refuses

/-- When one cause is that of two pairs. -/
theorem exists_refuses_iff :
    (∃ e : InvalidRatio, e.Refuses t ∧ e.Refuses u) ↔
      t.den = 0 ∧ u.den = 0 ∨ t = u ∧ 0 < t.den ∧ t.den < t.num := by
  constructor
  · rintro ⟨e, ht, hu⟩
    cases e with
    | zeroDenominator => exact .inl ⟨ht, hu⟩
    | numeratorExceedsDenominator n d => exact .inr ⟨ht.1.trans hu.1.symm, ht.2⟩
  · rintro (⟨ht, hu⟩ | ⟨rfl, h⟩)
    · exact ⟨zeroDenominator, ht, hu⟩
    · exact ⟨numeratorExceedsDenominator t.num t.den, ⟨rfl, h⟩, rfl, h⟩

end InvalidRatio

/-! ## Checks and verdicts -/

namespace Probability

theorem terms_inj {p q : Probability} (h : p.terms = q.terms) : p = q := by
  obtain ⟨⟨n, d, hd⟩, hn⟩ := p
  obtain ⟨⟨m, k, hk⟩, hm⟩ := q
  cases h
  rfl

/-- Outcomes are alike if they have one value or one cause. -/
theorem sameOutcome_iff {x y : Except InvalidRatio Probability} :
    sameOutcome x y ↔ x.map exact = y.map exact := by
  cases x with
  | ok p =>
      cases y with
      | ok q =>
          show p == q ↔ Except.ok p.exact = Except.ok q.exact
          rw [beq_iff_exact_eq, Except.ok.injEq]
      | error f => exact iff_of_false Bool.false_ne_true nofun
  | error e =>
      cases y with
      | ok q => exact iff_of_false Bool.false_ne_true nofun
      | error f =>
          show decide (e = f) = true ↔ Except.error e = Except.error f
          rw [decide_eq_true_iff, Except.error.injEq]

end Probability

namespace Terms

variable {t u : Terms}

/-- All that a check does. -/
theorem check_cases (t : Terms) :
    (∃ p : Probability, t.check = .ok p ∧ p.terms = t) ∨
      ∃ e : InvalidRatio, t.check = .error e ∧ e.Refuses t := by
  by_cases hd : t.den = 0
  · refine .inr ⟨.zeroDenominator, ?_, hd⟩
    rw [check, hd, Probability.check_zero]
  · by_cases hn : t.den < t.num
    · exact .inr ⟨_, Probability.check_of_lt hd hn, rfl, UInt32.pos_iff_ne_zero.mpr hd, hn⟩
    · exact .inl ⟨_, Probability.check_of_le hd (UInt32.not_lt.mp hn), rfl⟩

/-- The check gives the probability with the terms of the pair, and no other. -/
theorem check_eq_ok_iff (t : Terms) (p : Probability) : t.check = .ok p ↔ p.terms = t := by
  constructor
  · intro h
    obtain ⟨q, hq, hterms⟩ | ⟨e, he, -⟩ := t.check_cases
    · cases h.symm.trans hq
      exact hterms
    · cases h.symm.trans he
  · rintro rfl
    obtain ⟨q, hq, hterms⟩ | ⟨e, -, hrefuses⟩ := p.terms.check_cases
    · rw [hq, Probability.terms_inj hterms]
    · exact absurd (valid_terms p) hrefuses.not_valid

/-- The check gives the cause for which the pair is refused, and no other. -/
theorem check_eq_error_iff (t : Terms) (e : InvalidRatio) :
    t.check = .error e ↔ e.Refuses t := by
  obtain ⟨p, hp, rfl⟩ | ⟨f, hf, hrefuses⟩ := t.check_cases
  · rw [hp]
    exact iff_of_false nofun fun h => h.not_valid (valid_terms p)
  · rw [hf, Except.error.injEq]
    exact ⟨fun h => h ▸ hrefuses, hrefuses.unique⟩

theorem exists_check_eq_ok_iff (t : Terms) : (∃ p, t.check = .ok p) ↔ t.Valid := by
  simp only [check_eq_ok_iff]
  constructor
  · rintro ⟨p, rfl⟩
    exact valid_terms p
  · intro h
    obtain ⟨p, -, hterms⟩ | ⟨e, -, hrefuses⟩ := t.check_cases
    · exact ⟨p, hterms⟩
    · exact absurd h hrefuses.not_valid

theorem verdict_eq_ok_iff {v : ℚ} : t.verdict = .ok v ↔ t.Valid ∧ t.exact = v := by
  obtain ⟨p, hp, rfl⟩ | ⟨e, he, hrefuses⟩ := t.check_cases
  · rw [verdict, hp, and_iff_right (valid_terms p)]
    show Except.ok p.exact = Except.ok v ↔ p.exact = v
    rw [Except.ok.injEq]
  · rw [verdict, he]
    exact iff_of_false nofun fun h => hrefuses.not_valid h.1

theorem verdict_eq_error_iff {e : InvalidRatio} : t.verdict = .error e ↔ e.Refuses t := by
  rw [← check_eq_error_iff, verdict]
  cases t.check with
  | ok p => exact iff_of_false nofun nofun
  | error f =>
      show Except.error f = Except.error e ↔ _
      rw [Except.error.injEq, Except.error.injEq]

/-! ## Equality of checks -/

/-- Two checks are alike if and only if the pairs have one verdict. -/
theorem checksLike_iff_verdict_eq : t.checksLike u ↔ t.verdict = u.verdict :=
  Probability.sameOutcome_iff

/-- As the equality of a key, equality of checks is reflexive, symmetric and transitive. -/
theorem checksLike_equivalence : Equivalence fun t u : Terms => t.checksLike u = true := by
  simp only [checksLike_iff_verdict_eq]
  exact eq_equivalence.comap verdict

theorem checksLike_iff :
    t.checksLike u ↔ t.Valid ∧ u.Valid ∧ t.exact = u.exact ∨
      ∃ e : InvalidRatio, e.Refuses t ∧ e.Refuses u := by
  rw [checksLike_iff_verdict_eq]
  cases hu : u.verdict with
  | ok v =>
      obtain ⟨hvalid, rfl⟩ := verdict_eq_ok_iff.mp hu
      rw [verdict_eq_ok_iff]
      constructor
      · rintro ⟨ht, heq⟩
        exact .inl ⟨ht, hvalid, heq⟩
      · rintro (⟨ht, -, heq⟩ | ⟨e, -, he⟩)
        · exact ⟨ht, heq⟩
        · exact absurd hvalid he.not_valid
  | error f =>
      have hf := verdict_eq_error_iff.mp hu
      rw [verdict_eq_error_iff]
      constructor
      · intro ht
        exact .inr ⟨f, ht, hf⟩
      · rintro (⟨-, hvalid, -⟩ | ⟨e, ht, he⟩)
        · exact absurd hvalid hf.not_valid
        · rwa [hf.unique he]

/-- Checks that come out alike are both of probabilities or both of none. -/
theorem valid_iff_of_checksLike (h : t.checksLike u) : t.Valid ↔ u.Valid := by
  obtain ⟨ht, hu, -⟩ | ⟨e, ht, hu⟩ := checksLike_iff.mp h
  · exact iff_of_true ht hu
  · exact iff_of_false ht.not_valid hu.not_valid

example : compare (⟨0, 0⟩ : Terms) ⟨1, 2⟩ = .eq ∧ ¬ (⟨0, 0⟩ : Terms).checksLike ⟨1, 2⟩ := by
  decide

end Terms

/-! ## Agreement -/

namespace Probability

/-- The construction answers as the check, with a violation in the place of the cause. -/
theorem make_eq_mapError_check (n d : UInt32) :
    make n d = (check n d).mapError InvalidRatio.violation := by
  by_cases hd : d = 0
  · rw [hd, make_zero, check_zero]
    rfl
  · by_cases hn : d < n
    · rw [make_of_lt hd hn, check_of_lt hd hn]
      rfl
    · rw [make_of_le hd (UInt32.not_lt.mp hn), check_of_le hd (UInt32.not_lt.mp hn)]
      rfl

theorem make_eq_ok_iff (n d : UInt32) (p : Probability) :
    make n d = .ok p ↔ check n d = .ok p := by
  rw [make_eq_mapError_check]
  cases check n d with
  | ok q =>
      show Except.ok q = Except.ok p ↔ _
      rw [Except.ok.injEq, Except.ok.injEq]
  | error e => exact iff_of_false nofun nofun

/-- The caller of `make` sees the message of a cause if and only if `check` answers with it. -/
theorem message_make_eq_iff (n d : UInt32) (e : InvalidRatio) :
    (make n d).mapError Violation.message = .error e.violation.message ↔
      check n d = .error e := by
  rw [make_eq_mapError_check]
  cases check n d with
  | ok q => exact iff_of_false nofun nofun
  | error f =>
      show Except.error f.violation.message = Except.error e.violation.message ↔ _
      rw [Except.error.injEq, Except.error.injEq]
      exact ⟨InvalidRatio.message_violation_inj, fun h => by rw [h]⟩

/-- The two constructions agree on every pair of words.  Both give the probability with these
terms if the words are valid.  If not, `check` answers with the cause for which they are refused,
and `make` fails with the message that belongs to it and to no other.  Two checks come out alike
if and only if both pairs are valid and of one value, or both have denominator zero, or they are
one pair above one.  On all pairs this is an equivalence, and it keeps the valid ones apart from
the others. -/
theorem constructions_agree (n d : UInt32) (t u : Terms) :
    make n d = (check n d).mapError InvalidRatio.violation ∧
    ((∃ p, make n d = .ok p) ↔ Terms.Valid ⟨n, d⟩) ∧
    (∀ p : Probability, (make n d = .ok p ↔ check n d = .ok p) ∧
      (check n d = .ok p ↔ p.terms = ⟨n, d⟩)) ∧
    (∀ e : InvalidRatio, check n d = .error e ↔ e.Refuses ⟨n, d⟩) ∧
    ((make n d).mapError Violation.message = .error "denominator cannot be 0" ↔
      check n d = .error .zeroDenominator) ∧
    (∀ m k : UInt32,
      (make n d).mapError Violation.message
          = .error ("probability cannot be bigger than 1 (" ++ toString m.toNat ++ " / "
              ++ toString k.toNat ++ ")") ↔
        check n d = .error (.numeratorExceedsDenominator m k)) ∧
    (t.checksLike u ↔
      t.Valid ∧ u.Valid ∧ t.exact = u.exact ∨ t.den = 0 ∧ u.den = 0 ∨
        t = u ∧ 0 < t.den ∧ t.den < t.num) ∧
    (Equivalence fun t u : Terms => t.checksLike u = true) ∧
    (t.checksLike u → (t.Valid ↔ u.Valid)) := by
  have hok := Terms.check_eq_ok_iff ⟨n, d⟩
  have herror := Terms.check_eq_error_iff ⟨n, d⟩
  have hmessage := message_make_eq_iff n d
  refine ⟨make_eq_mapError_check n d, ?_, fun p => ⟨make_eq_ok_iff n d p, hok p⟩, herror,
    hmessage .zeroDenominator, fun m k => hmessage (.numeratorExceedsDenominator m k), ?_,
    Terms.checksLike_equivalence, Terms.valid_iff_of_checksLike⟩
  · simp only [make_eq_ok_iff]
    exact Terms.exists_check_eq_ok_iff ⟨n, d⟩
  · rw [Terms.checksLike_iff, InvalidRatio.exists_refuses_iff]

/-- A pair just above one, and one in its greatest and in its least terms. -/
theorem constructions_agree_at_edge :
    let t : Terms := ⟨4294967295, 4294967295⟩
    let u : Terms := ⟨1, 1⟩
    (make 4294967295 4294967294).mapError Violation.message
        = .error "probability cannot be bigger than 1 (4294967295 / 4294967294)" ∧
      t.checksLike u ∧ u.Valid ∧ t.Valid := by
  intro t u
  obtain ⟨-, -, -, herror, -, hmessage, -, -, hvalid⟩ :=
    constructions_agree 4294967295 4294967294 t u
  have hrefused := (herror (.numeratorExceedsDenominator 4294967295 4294967294)).mpr
    ⟨rfl, by decide, by decide⟩
  have halike : t.checksLike u := by decide
  have hu : u.Valid := ⟨by decide, by decide⟩
  exact ⟨(hmessage _ _).mpr hrefused, halike, hu, (hvalid halike).mpr hu⟩

end Probability

end BranchFlow
