import Mathlib.Data.List.Induction
import BranchFlow.Order
import BranchFlow.Proofs.TotalOrder

/-!
# Sorted lists, representatives and extremes

Values of one key may differ, so it matters which of them a list operation keeps and where.  The
values of a list that have a given key, in their order, are a *class* of it.  A list that is in
order of its keys is determined by its classes (`eq_of_filter_eq`), and sorting leaves every class
as it is (`ComparesBy.filter_sorted`).
-/

namespace BranchFlow

variable {α κ : Type} [LinearOrder κ] {key : α → κ}

/-! ## Lists in order of a key -/

/-- Of two lists in order with the same classes neither begins with a greater key. -/
theorem key_le_key_of_filter_eq {x y : α} {xs ys : List α}
    (hx : (x :: xs).Pairwise fun a b => key a ≤ key b)
    (h : ∀ k, (x :: xs).filter (key · = k) = (y :: ys).filter (key · = k)) : key x ≤ key y := by
  have hy : y ∈ (x :: xs).filter (key · = key y) := by
    rw [h]
    simp
  rcases List.mem_cons.mp (List.mem_filter.mp hy).1 with rfl | hy
  · exact le_rfl
  · exact List.rel_of_pairwise_cons hx hy

/-- Two lists in order with the same classes begin alike, since both heads are the first of one
class. -/
theorem head_eq_of_filter_eq {x y : α} {xs ys : List α}
    (hx : (x :: xs).Pairwise fun a b => key a ≤ key b)
    (hy : (y :: ys).Pairwise fun a b => key a ≤ key b)
    (h : ∀ k, (x :: xs).filter (key · = k) = (y :: ys).filter (key · = k)) : x = y := by
  have hkey : key x = key y :=
    le_antisymm (key_le_key_of_filter_eq hx h) (key_le_key_of_filter_eq hy fun k => (h k).symm)
  have hclass := h (key x)
  rw [List.filter_cons_of_pos (by simp), List.filter_cons_of_pos (by simp [hkey])] at hclass
  exact (List.cons.inj hclass).1

/-- A list in order is determined by its classes. -/
theorem eq_of_filter_eq {xs ys : List α} (hx : xs.Pairwise fun a b => key a ≤ key b)
    (hy : ys.Pairwise fun a b => key a ≤ key b)
    (h : ∀ k, xs.filter (key · = k) = ys.filter (key · = k)) : xs = ys := by
  induction xs generalizing ys with
  | nil =>
      cases ys with
      | nil => rfl
      | cons y ys => simpa using h (key y)
  | cons x xs ih =>
      cases ys with
      | nil => simpa using h (key x)
      | cons y ys =>
          obtain rfl := head_eq_of_filter_eq hx hy h
          congr 1
          refine ih hx.of_cons hy.of_cons fun k => ?_
          have hclass := h k
          rw [List.filter_cons, List.filter_cons] at hclass
          split at hclass
          · exact (List.cons.inj hclass).2
          · exact hclass

/-! ## Extremes -/

/-- A least value of a list, the first of its class. -/
structure FirstLeast (key : α → κ) (xs : List α) (m : α) : Prop where
  le : ∀ x ∈ xs, key m ≤ key x
  first : xs.find? (key · = key m) = some m

/-- A greatest value of a list, the last of its class. -/
structure LastGreatest (key : α → κ) (xs : List α) (m : α) : Prop where
  ge : ∀ x ∈ xs, key x ≤ key m
  last : xs.reverse.find? (key · = key m) = some m

variable {xs : List α} {m n x : α}

theorem FirstLeast.unique (hm : FirstLeast key xs m) (hn : FirstLeast key xs n) : m = n := by
  have hkey : key m = key n :=
    le_antisymm (hm.le n (List.mem_of_find?_eq_some hn.first))
      (hn.le m (List.mem_of_find?_eq_some hm.first))
  have hfirst := hm.first
  rw [hkey, hn.first] at hfirst
  exact (Option.some.inj hfirst).symm

theorem LastGreatest.unique (hm : LastGreatest key xs m) (hn : LastGreatest key xs n) :
    m = n := by
  have hkey : key m = key n :=
    le_antisymm (hn.ge m (List.mem_reverse.mp (List.mem_of_find?_eq_some hm.last)))
      (hm.ge n (List.mem_reverse.mp (List.mem_of_find?_eq_some hn.last)))
  have hlast := hm.last
  rw [hkey, hn.last] at hlast
  exact (Option.some.inj hlast).symm

theorem firstLeast_singleton (x : α) : FirstLeast key [x] x := ⟨by simp, by simp⟩

theorem lastGreatest_singleton (x : α) : LastGreatest key [x] x := ⟨by simp, by simp⟩

/-- A value at the end takes over from the first least one only if it is less. -/
theorem FirstLeast.concat_of_le (h : FirstLeast key xs m) (hx : key m ≤ key x) :
    FirstLeast key (xs ++ [x]) m where
  le := List.forall_mem_append.mpr ⟨h.le, List.forall_mem_singleton.mpr hx⟩
  first := by
    rw [List.find?_append, h.first]
    rfl

theorem FirstLeast.concat_of_lt (h : FirstLeast key xs m) (hx : key x < key m) :
    FirstLeast key (xs ++ [x]) x := by
  have hlt : ∀ y ∈ xs, key x < key y := fun y hy => hx.trans_le (h.le y hy)
  have hnone : xs.find? (key · = key x) = none := by
    rw [List.find?_eq_none]
    intro y hy
    simpa using (hlt y hy).ne'
  constructor
  · exact List.forall_mem_append.mpr
      ⟨fun y hy => (hlt y hy).le, List.forall_mem_singleton.mpr le_rfl⟩
  · rw [List.find?_append, hnone]
    simp

/-- A value at the end takes over from the last greatest one unless it is less. -/
theorem LastGreatest.concat_of_le (h : LastGreatest key xs m) (hx : key m ≤ key x) :
    LastGreatest key (xs ++ [x]) x where
  ge := List.forall_mem_append.mpr
    ⟨fun y hy => (h.ge y hy).trans hx, List.forall_mem_singleton.mpr le_rfl⟩
  last := by rw [List.reverse_concat, List.find?_cons_of_pos (by simp)]

theorem LastGreatest.concat_of_lt (h : LastGreatest key xs m) (hx : key x < key m) :
    LastGreatest key (xs ++ [x]) m where
  ge := List.forall_mem_append.mpr ⟨h.ge, List.forall_mem_singleton.mpr hx.le⟩
  last := by
    rw [List.reverse_concat, List.find?_cons_of_neg (by simpa using hx.ne)]
    exact h.last

/-! ## Sorting -/

namespace ComparesBy

variable [Ord α] [BEq α] (h : ComparesBy key)

include h

theorem isLE_trans (a b c : α) (hab : (compare a b).isLE) (hbc : (compare b c).isLE) :
    (compare a c).isLE := by
  rw [h.isLE_compare_iff] at hab hbc ⊢
  exact hab.trans hbc

theorem isLE_or_isLE (a b : α) : (compare a b).isLE || (compare b a).isLE := by
  rw [Bool.or_eq_true]
  exact h.isLE_total

theorem pairwise_sorted (xs : List α) : (sorted xs).Pairwise fun a b => key a ≤ key b :=
  (List.pairwise_mergeSort h.isLE_trans h.isLE_or_isLE xs).imp h.isLE_compare_iff.mp

/-- Sorting leaves every class as it is.  A class is in order already, so the sort keeps it as a
part of the whole, where there is no room for more. -/
theorem filter_sorted (xs : List α) (k : κ) :
    (sorted xs).filter (key · = k) = xs.filter (key · = k) := by
  have horder : (xs.filter (key · = k)).Pairwise fun a b => (compare a b).isLE := by
    rw [List.pairwise_filter]
    refine List.pairwise_of_forall fun a b ha hb => h.isLE_compare_iff.mpr ?_
    exact ((of_decide_eq_true ha).trans (of_decide_eq_true hb).symm).le
  have hsublist : (xs.filter (key · = k)).Sublist (sorted xs) :=
    List.sublist_mergeSort h.isLE_trans h.isLE_or_isLE horder List.filter_sublist
  have hclass := hsublist.filter (key · = k)
  rw [List.filter_filter] at hclass
  simp only [Bool.and_self] at hclass
  exact (hclass.eq_of_length ((List.mergeSort_perm xs _).filter _).length_eq.symm).symm

/-- The sorted list is the only one in order with the classes of the list. -/
theorem eq_sorted {xs ys : List α} (hy : ys.Pairwise fun a b => key a ≤ key b)
    (hclass : ∀ k, ys.filter (key · = k) = xs.filter (key · = k)) : ys = sorted xs :=
  eq_of_filter_eq hy (h.pairwise_sorted xs) fun k => (hclass k).trans (h.filter_sorted xs k).symm

/-- Sorting keeps the first value of every class. -/
theorem find?_sorted (xs : List α) (k : κ) :
    (sorted xs).find? (key · = k) = xs.find? (key · = k) := by
  rw [← List.head?_filter, ← List.head?_filter, h.filter_sorted]

/-- What comes first in order is the first least value of the list. -/
theorem firstLeast_of_head?_sorted (hm : (sorted xs).head? = some m) :
    FirstLeast key xs m := by
  obtain ⟨rest, hrest⟩ := List.head?_eq_some_iff.mp hm
  have horder := h.pairwise_sorted xs
  rw [hrest] at horder
  constructor
  · intro x hx
    have hx : x ∈ m :: rest := hrest ▸ List.mem_mergeSort.mpr hx
    rcases List.mem_cons.mp hx with rfl | hx
    · exact le_rfl
    · exact List.rel_of_pairwise_cons horder hx
  · rw [← h.find?_sorted, hrest, List.find?_cons_of_pos (by simp)]

/-- What comes last in order is the last greatest value of the list. -/
theorem lastGreatest_of_getLast?_sorted (hm : (sorted xs).getLast? = some m) :
    LastGreatest key xs m := by
  obtain ⟨rest, hrest⟩ := List.getLast?_eq_some_iff.mp hm
  have horder := h.pairwise_sorted xs
  rw [hrest, List.pairwise_append] at horder
  constructor
  · intro x hx
    have hx : x ∈ rest ++ [m] := hrest ▸ List.mem_mergeSort.mpr hx
    rcases List.mem_append.mp hx with hx | hx
    · exact horder.2.2 x hx m (List.mem_singleton_self m)
    · rw [List.mem_singleton.mp hx]
  · rw [← List.getLast?_filter, ← h.filter_sorted, List.getLast?_filter, hrest,
      List.reverse_concat, List.find?_cons_of_pos (by simp)]

/-- The first least value of a list comes first in order. -/
theorem head?_sorted (hm : FirstLeast key xs m) : (sorted xs).head? = some m := by
  have hmem : m ∈ sorted xs := List.mem_mergeSort.mpr (List.mem_of_find?_eq_some hm.first)
  obtain ⟨n, rest, hn⟩ := List.exists_cons_of_ne_nil (List.ne_nil_of_mem hmem)
  have hhead : (sorted xs).head? = some n := by rw [hn, List.head?_cons]
  rw [hhead, (h.firstLeast_of_head?_sorted hhead).unique hm]

/-- The last greatest value of a list comes last in order. -/
theorem getLast?_sorted (hm : LastGreatest key xs m) : (sorted xs).getLast? = some m := by
  have hmem : m ∈ sorted xs :=
    List.mem_mergeSort.mpr (List.mem_reverse.mp (List.mem_of_find?_eq_some hm.last))
  have hlast := List.getLast?_eq_some_getLast (List.ne_nil_of_mem hmem)
  rw [hlast, (h.lastGreatest_of_getLast?_sorted hlast).unique hm]

/-! ## Representatives -/

/-- In a list in order, the heads of the runs have different keys. -/
theorem pairwise_runHeadsAfter {a : α} {xs : List α}
    (hs : (a :: xs).Pairwise fun b c => key b ≤ key c) :
    (a :: runHeadsAfter a xs).Pairwise fun b c => key b < key c := by
  induction xs generalizing a with
  | nil => exact List.pairwise_singleton ..
  | cons x xs ih =>
      rw [runHeadsAfter]
      split
      next hax =>
        exact ih (hs.sublist ((List.sublist_cons_self x xs).cons_cons a))
      next hax =>
        have hrest := ih hs.of_cons
        have hlt : key a < key x :=
          lt_of_le_of_ne (List.rel_of_pairwise_cons hs List.mem_cons_self)
            (mt (h.beq_iff a x).mpr hax)
        refine List.pairwise_cons.mpr ⟨fun y hy => ?_, hrest⟩
        rcases List.mem_cons.mp hy with rfl | hy
        · exact hlt
        · exact hlt.trans (List.rel_of_pairwise_cons hrest hy)

/-- In a list in order, the head of a run is all that is kept of its class, since the other heads
have greater keys. -/
theorem filter_runHeadsAfter {a : α} {xs : List α}
    (hs : (a :: xs).Pairwise fun b c => key b ≤ key c) (k : κ) :
    (a :: runHeadsAfter a xs).filter (key · = k) = ((a :: xs).find? (key · = k)).toList := by
  induction xs generalizing a with
  | nil => by_cases hk : key a = k <;> simp [runHeadsAfter, hk]
  | cons x xs ih =>
      have hheads := h.pairwise_runHeadsAfter hs
      rw [runHeadsAfter] at hheads ⊢
      split
      next hax =>
        rw [ih (hs.sublist ((List.sublist_cons_self x xs).cons_cons a))]
        have hkey : key a = key x := (h.beq_iff a x).mp hax
        by_cases hk : key x = k <;> simp [hkey, hk]
      next hax =>
        rw [if_neg hax] at hheads
        by_cases hk : key a = k
        · have hnone : (x :: runHeadsAfter x xs).filter (key · = k) = [] := by
            rw [List.filter_eq_nil_iff]
            intro y hy
            simpa [← hk] using (List.rel_of_pairwise_cons hheads hy).ne'
          rw [List.filter_cons_of_pos (by simpa using hk), hnone,
            List.find?_cons_of_pos (by simpa using hk)]
          rfl
        · rw [List.filter_cons_of_neg (by simpa using hk),
            List.find?_cons_of_neg (by simpa using hk)]
          exact ih hs.of_cons

/-- The representatives are in order, and no two are of one class. -/
theorem pairwise_representatives (xs : List α) :
    (representatives xs).Pairwise fun a b => key a < key b := by
  have horder := h.pairwise_sorted xs
  rw [representatives]
  cases hs : sorted xs with
  | nil => exact List.Pairwise.nil
  | cons a as => exact h.pairwise_runHeadsAfter (hs ▸ horder)

/-- Of every class its first value is the representative, and the only one. -/
theorem filter_representatives (xs : List α) (k : κ) :
    (representatives xs).filter (key · = k) = (xs.find? (key · = k)).toList := by
  have horder := h.pairwise_sorted xs
  rw [← h.find?_sorted, representatives]
  cases hs : sorted xs with
  | nil => rfl
  | cons a as => exact h.filter_runHeadsAfter (hs ▸ horder) k

end ComparesBy

/-! ## Lists of probabilities -/

namespace Probability

/-- Of two equal probabilities `min` gives the first. -/
theorem firstLeast_foldl_min (p : Probability) (ps : List Probability) :
    FirstLeast exact (p :: ps) (ps.foldl min p) := by
  induction ps using List.reverseRecOn with
  | nil => exact firstLeast_singleton p
  | append_singleton ps q ih =>
      rw [List.foldl_append, List.foldl_cons, List.foldl_nil, ← List.cons_append]
      generalize ps.foldl min p = m at ih ⊢
      show FirstLeast exact _ (if m ≤ q then m else q)
      split
      next hle => exact ih.concat_of_le (le_iff_exact_le.mp hle)
      next hle => exact ih.concat_of_lt (not_le.mp (mt le_iff_exact_le.mpr hle))

/-- Of two equal probabilities `max` gives the second. -/
theorem lastGreatest_foldl_max (p : Probability) (ps : List Probability) :
    LastGreatest exact (p :: ps) (ps.foldl max p) := by
  induction ps using List.reverseRecOn with
  | nil => exact lastGreatest_singleton p
  | append_singleton ps q ih =>
      rw [List.foldl_append, List.foldl_cons, List.foldl_nil, ← List.cons_append]
      generalize ps.foldl max p = m at ih ⊢
      show LastGreatest exact _ (if m ≤ q then q else m)
      split
      next hle => exact ih.concat_of_le (le_iff_exact_le.mp hle)
      next hle => exact ih.concat_of_lt (not_le.mp (mt le_iff_exact_le.mpr hle))

/-- The least of a list is the first of its sorted list. -/
theorem exists_firstLeast {ps : List Probability} (hps : ps ≠ []) :
    ∃ m, ps.min? = some m ∧ (sorted ps).head? = some m ∧ FirstLeast exact ps m := by
  obtain ⟨p, ps, rfl⟩ := List.exists_cons_of_ne_nil hps
  have hleast := firstLeast_foldl_min p ps
  exact ⟨_, List.min?_cons', comparesBy_exact.head?_sorted hleast, hleast⟩

/-- The greatest of a list is the last of its sorted list. -/
theorem exists_lastGreatest {ps : List Probability} (hps : ps ≠ []) :
    ∃ m, ps.max? = some m ∧ (sorted ps).getLast? = some m ∧ LastGreatest exact ps m := by
  obtain ⟨p, ps, rfl⟩ := List.exists_cons_of_ne_nil hps
  have hgreatest := lastGreatest_foldl_max p ps
  exact ⟨_, List.max?_cons', comparesBy_exact.getLast?_sorted hgreatest, hgreatest⟩

/-- What becomes of the terms when probabilities are sorted, when representatives of their values
are taken, and when the least or the greatest is.  The sorted list is the one permutation in
ascending order that keeps the probabilities of each value as they stood.  The representatives
ascend strictly, and that of a value is the first probability of this value, in its own terms.
The least and the greatest of a list are the first of the least and the last of the greatest, and
stand first and last in the sorted list. -/
theorem sorting_keeps_terms (ps : List Probability) :
    (∀ qs : List Probability,
      qs.Perm ps ∧ qs.Pairwise (·.exact ≤ ·.exact) ∧
          (∀ v : ℚ, qs.filter (·.exact = v) = ps.filter (·.exact = v)) ↔
        qs = sorted ps) ∧
    (representatives ps).Pairwise (·.exact < ·.exact) ∧
    (∀ v : ℚ,
      (representatives ps).filter (·.exact = v) = (ps.find? (·.exact = v)).toList) ∧
    (ps ≠ [] →
      (∃ least, ps.min? = some least ∧ (sorted ps).head? = some least ∧
        FirstLeast exact ps least) ∧
      ∃ greatest, ps.max? = some greatest ∧ (sorted ps).getLast? = some greatest ∧
        LastGreatest exact ps greatest) := by
  have hby := comparesBy_exact
  refine ⟨fun qs => ⟨fun ⟨_, horder, hclass⟩ => hby.eq_sorted horder hclass, ?_⟩,
    hby.pairwise_representatives ps, hby.filter_representatives ps,
    fun hps => ⟨exists_firstLeast hps, exists_lastGreatest hps⟩⟩
  rintro rfl
  exact ⟨List.mergeSort_perm .., hby.pairwise_sorted ps, hby.filter_sorted ps⟩

/-- Two halves and two thirds, each in two terms. -/
theorem sorting_keeps_terms_of_halves_and_thirds :
    let half : Probability := { num := 1, den := 2 }
    let quarters : Probability := { num := 2, den := 4 }
    let third : Probability := { num := 1, den := 3 }
    let ninths : Probability := { num := 3, den := 9 }
    let ps := [quarters, third, half, ninths]
    ps ≠ [] ∧ [third, ninths, quarters, half] = sorted ps ∧
      ps.min? = some third ∧ ps.max? = some half ∧
      (representatives ps).filter (·.exact = half.exact) = [quarters] := by
  intro half quarters third ninths ps
  have hhalves : quarters.exact = half.exact := exact_eq_exact_iff.mpr rfl
  have hthirds : ninths.exact = third.exact := exact_eq_exact_iff.mpr rfl
  have hlt : third.exact < half.exact := exact_lt_exact_iff.mpr (by decide)
  obtain ⟨hsorted, -, hclass, hextremes⟩ := sorting_keeps_terms ps
  have hps : ps ≠ [] := List.cons_ne_nil _ _
  have hunique : [third, ninths, quarters, half] = sorted ps := by
    refine (hsorted _).mp ⟨by decide, ?_, fun v => ?_⟩
    · simp [hhalves, hthirds, hlt.le]
    · by_cases hthird : third.exact = v
      · simp [ps, hhalves, hthirds, hthird, (hthird ▸ hlt).ne']
      · by_cases hhalf : half.exact = v <;> simp [ps, hhalves, hthirds, hthird, hhalf]
  obtain ⟨⟨least, hmin, hhead, -⟩, greatest, hmax, hlast, -⟩ := hextremes hps
  rw [← hunique] at hhead hlast
  obtain rfl : third = least := Option.some.inj hhead
  obtain rfl : half = greatest := Option.some.inj hlast
  refine ⟨hps, hunique, hmin, hmax, ?_⟩
  rw [hclass, List.find?_cons_of_pos (by simp [hhalves])]
  rfl

end Probability

end BranchFlow
