import BranchFlow.Proofs.Decoding
import BranchFlow.Proofs.Rounding
import BranchFlow.Proofs.SignificantBits
import BranchFlow.Text

/-!
# Frequencies relative to the entry block

The entry-relative value of a frequency is rounded once.  The conversion of the units rounds them to
53 significant bits (`value_ofNat`).  The division by the units of the entry block only moves the
exponent, because a quotient with 53 significant bits is its own rounding.
-/

namespace BranchFlow

namespace Binary64

/-! ## Conversion -/

/-- Numbers with at most 53 significant bits are converted as they are. -/
theorem value_ofNat_of_significant {n : ℕ} (h : Significant 53 n) : (ofNat n).value = n := by
  obtain ⟨m, e, hm, rfl⟩ := h
  rw [ofNat, value_ofRatio_of_eq (k := e) Nat.one_pos hm (by simp)]
  simp

/-- A natural number is rounded to 53 significant bits. -/
theorem value_ofNat {x m e : ℕ} (h : RoundsTo x m e) : (ofNat x).value = (m * 2 ^ e : ℕ) := by
  obtain ⟨rfl, rfl⟩ := (roundsTo_nearest x).unique h
  rcases lt_or_ge x (2 ^ 53) with hlow | hhigh
  · rw [h.eq_iff.mpr (significant_of_le hlow.le)]
    exact value_ofNat_of_significant (significant_of_le hlow.le)
  · have hx : 0 < x := Nat.lt_of_lt_of_le (Nat.two_pow_pos 53) hhigh
    have hlog : 53 ≤ Nat.log 2 x := Nat.le_log_of_pow_le Nat.one_lt_two hhigh
    have hexp : unitExponent x 1 = (Nat.log 2 x - 52 : ℕ) := by
      rw [unitExponent_eq hx Nat.one_pos, Nat.cast_one, div_one, Int.log_natCast]
      omega
    rw [ofNat, value_ofRatio, hexp, Int.toNat_natCast, Int.toNat_neg_natCast, Nat.shiftLeft_zero,
      Nat.shiftLeft_eq, Nat.one_mul, zpow_natCast, Nat.cast_mul, Nat.cast_pow, Nat.cast_ofNat]

/-! ## Range -/

/-- A quotient in the range of the format is a number that the format has. -/
theorem representable_ofRatio {num den : ℕ} (hd : 0 < den)
    (hrange : 0 < num → -1022 ≤ Int.log 2 ((num : ℚ) / den) ∧ Int.log 2 ((num : ℚ) / den) ≤ 1022) :
    Representable (ofRatio num den) := by
  have hpos : (ofRatio num den).mantissa ≠ 0 → 0 < num := by
    intro h
    refine Nat.pos_of_ne_zero ?_
    rintro rfl
    exact h (by simp [ofRatio])
  refine ⟨fun h => mantissa_ofRatio_bounds (hpos h) hd, fun h => ?_⟩
  have hexp : (ofRatio num den).exponent = Int.log 2 ((num : ℚ) / den) - 52 :=
    unitExponent_eq (hpos h) hd
  have := hrange (hpos h)
  omega

end Binary64

namespace Frequency

open Binary64

variable {m e : ℕ}

/-! ## The units of a frequency, rounded -/

/-- Units of 64 bits have their last place at eleven at most. -/
theorem place_le_eleven {f : Frequency} (h : RoundsTo f.toNat m e) : e ≤ 11 := by
  rcases h.le with hzero | hle
  · omega
  · have hlt : 52 + e < 64 :=
      (Nat.pow_lt_pow_iff_right Nat.one_lt_two).mp (hle.trans_lt f.toNat_lt)
    omega

theorem rounded_le {f : Frequency} (h : RoundsTo f.toNat m e) : m * 2 ^ e ≤ 2 ^ 64 := by
  calc m * 2 ^ e ≤ 2 ^ 53 * 2 ^ 11 :=
        Nat.mul_le_mul h.mantissa_le_two_pow
          (Nat.pow_le_pow_right Nat.two_pos (place_le_eleven h))
    _ = 2 ^ 64 := by decide

theorem abs_sub_rounded_le {f : Frequency} (h : RoundsTo f.toNat m e) :
    |(f.toNat : ℤ) - (m * 2 ^ e : ℕ)| ≤ 2 ^ 10 := by
  have hnear := h.near
  have hplace : 2 ^ e ≤ 2 ^ 11 := Nat.pow_le_pow_right Nat.two_pos (place_le_eleven h)
  omega

/-! ## The quotient by the units of the entry block -/

theorem value_ofNat_entry : (ofNat entry.toNat).value = 16384 :=
  value_ofNat_of_significant (significant_of_le (by decide))

/-- The second quotient is that of the rounded units by a power of two. -/
theorem exists_entryRelative_eq (f : Frequency) :
    ∃ num den, 0 < den ∧ f.entryRelative = ofRatio num den ∧
      (num : ℚ) / den = (ofNat f.toNat).value / 16384 := by
  refine ⟨_, _, ?_, rfl, ?_⟩
  · exact Nat.mul_pos (den_pos _) (by decide +kernel)
  · rw [num_mul_den_div_den_mul_num, value_ofNat_entry]

/-- The units are rounded once, by the conversion. -/
theorem value_entryRelative {f : Frequency} (h : RoundsTo f.toNat m e) :
    f.entryRelative.value * 16384 = (m * 2 ^ e : ℕ) := by
  obtain ⟨num, den, hd, heq, hquot⟩ := exists_entryRelative_eq f
  obtain ⟨k, j, hk, hkj⟩ := h.significant
  have hbits : (num : ℚ) / den = k * 2 ^ ((j : ℤ) - 14) := by
    rw [hquot, value_ofNat h, hkj, zpow_sub₀ two_ne_zero, zpow_natCast, Nat.cast_mul, Nat.cast_pow,
      mul_div_assoc]
    norm_num
  rw [heq, value_ofRatio_of_eq hd hk hbits, ← hbits, hquot, value_ofNat h]
  exact div_mul_cancel₀ _ (by norm_num)

/-- The quotients lie between `2 ^ (-14)` and `2 ^ 50` or are zero, so the format has them. -/
theorem representable_entryRelative (f : Frequency) : Representable f.entryRelative := by
  obtain ⟨num, den, hd, heq, hquot⟩ := exists_entryRelative_eq f
  obtain ⟨m, e, h⟩ : ∃ m e, RoundsTo f.toNat m e := ⟨_, _, roundsTo_nearest _⟩
  rw [heq]
  refine representable_ofRatio hd fun hn => ?_
  have hpos : (0 : ℚ) < num / den := div_pos (Nat.cast_pos.mpr hn) (Nat.cast_pos.mpr hd)
  rw [value_ofNat h] at hquot
  have hone : 1 ≤ m * 2 ^ e := by
    rw [hquot] at hpos
    have := (div_pos_iff_of_pos_right (by norm_num)).mp hpos
    exact_mod_cast this
  have hle := rounded_le h
  generalize m * 2 ^ e = n at *
  have hlow : (-14 : ℤ) ≤ Int.log 2 ((num : ℚ) / den) := by
    rw [← Int.zpow_le_iff_le_log one_lt_two hpos, hquot, le_div_iff₀ (by norm_num)]
    norm_num
    exact_mod_cast hone
  have hhigh : Int.log 2 ((num : ℚ) / den) < 51 := by
    rw [← Int.lt_zpow_iff_log_lt one_lt_two hpos, hquot, div_lt_iff₀ (by norm_num)]
    norm_num
    exact_mod_cast hle.trans_lt (by norm_num)
  omega

/-! ## The word of a frequency -/

/-- The word stands for the rounded units over those of the entry block. -/
theorem decode_entryRelative {f : Frequency} (h : RoundsTo f.toNat m e) :
    decode f.entryRelative.bits * 16384 = (m * 2 ^ e : ℕ) := by
  rw [f.representable_entryRelative.decode_bits, value_entryRelative h]

theorem decode_entryRelative_nonneg (f : Frequency) : 0 ≤ decode f.entryRelative.bits := by
  have hvalue := decode_entryRelative (roundsTo_nearest f.toNat)
  refine nonneg_of_mul_nonneg_left ?_ (show (0 : ℚ) < 16384 by norm_num)
  rw [hvalue]
  exact Nat.cast_nonneg _

theorem bits_entryRelative_mono {f g : Frequency} (hfg : f ≤ g) :
    f.entryRelative.bits ≤ g.entryRelative.bits := by
  have hf := roundsTo_nearest f.toNat
  have hg := roundsTo_nearest g.toNat
  refine le_of_decode_le f.representable_entryRelative.signField_bits ?_
  refine le_of_mul_le_mul_right ?_ (show (0 : ℚ) < 16384 by norm_num)
  rw [decode_entryRelative hf, decode_entryRelative hg]
  exact_mod_cast hf.mono hg (le_iff_toNat_le.mp hfg)

/-- The entry-relative value of a frequency is rounded once.  Its word is that of a finite number
without a sign.  Times the units of the entry block this number is the units of the frequency,
rounded in the one way to 53 significant bits, and no other number with as many bits is nearer to
them.  It is equal to them if and only if they are zero or their greatest odd factor is below
`2 ^ 53`, which holds of all units up to `2 ^ 53`.  It is never more than `2 ^ 10` away, and a
greater frequency has no less a word. -/
theorem entryRelative_rounds_once (f g : Frequency) :
    (exponentField f.entryRelative.bits < 2047 ∧ 0 ≤ decode f.entryRelative.bits) ∧
    (∃ m e, RoundsTo f.toNat m e ∧ (∀ m' e', RoundsTo f.toNat m' e' → m' = m ∧ e' = e) ∧
      decode f.entryRelative.bits * 16384 = (m * 2 ^ e : ℕ) ∧
      ∀ n, Significant 53 n → |(f.toNat : ℤ) - (m * 2 ^ e : ℕ)| ≤ |(f.toNat : ℤ) - n|) ∧
    (decode f.entryRelative.bits * 16384 = f.toNat ↔
      f.toNat = 0 ∨ f.toNat / 2 ^ padicValNat 2 f.toNat < 2 ^ 53) ∧
    (f.toNat ≤ 2 ^ 53 → decode f.entryRelative.bits * 16384 = f.toNat) ∧
    |decode f.entryRelative.bits * 16384 - f.toNat| ≤ 2 ^ 10 ∧
    (f ≤ g → f.entryRelative.bits ≤ g.entryRelative.bits) := by
  obtain ⟨m, e, h⟩ : ∃ m e, RoundsTo f.toNat m e := ⟨_, _, roundsTo_nearest _⟩
  have hvalue := decode_entryRelative h
  have hexact : decode f.entryRelative.bits * 16384 = f.toNat ↔ Significant 53 f.toNat := by
    rw [hvalue, Nat.cast_inj, h.eq_iff]
  refine ⟨⟨f.representable_entryRelative.exponentField_bits_lt, f.decode_entryRelative_nonneg⟩,
    ⟨m, e, h, fun m' e' h' => h.unique h', hvalue, fun n hn => h.abs_sub_le hn⟩,
    by rw [hexact, significant_iff], fun hle => hexact.mpr (significant_of_le hle), ?_,
    bits_entryRelative_mono⟩
  rw [hvalue, abs_sub_comm]
  exact_mod_cast abs_sub_rounded_le h

/-- Halfway between two neighbours the units are rounded to the even one, which is the greatest
number up to which all are exact. -/
theorem entryRelative_rounds_once_at_tie :
    let f : Frequency := ⟨9007199254740992⟩
    let g : Frequency := ⟨9007199254740993⟩
    f.toNat ≤ 2 ^ 53 ∧ decode f.entryRelative.bits * 16384 = f.toNat ∧
      f ≤ g ∧ f.entryRelative.bits ≤ g.entryRelative.bits ∧
      g.entryRelative.bits = f.entryRelative.bits ∧
      ¬ g.toNat / 2 ^ padicValNat 2 g.toNat < 2 ^ 53 := by
  intro f g
  have hf : f.toNat ≤ 2 ^ 53 := by decide
  have hfg : f ≤ g := by decide
  have htie : g.entryRelative.bits = f.entryRelative.bits := by decide +kernel
  obtain ⟨-, -, -, hexact, -, hmono⟩ := entryRelative_rounds_once f g
  obtain ⟨-, -, hiff, -⟩ := entryRelative_rounds_once g f
  refine ⟨hf, hexact hf, hfg, hmono hfg, htie, fun hodd => ?_⟩
  have heq := hiff.mpr (.inr hodd)
  rw [htie, hexact hf] at heq
  exact absurd (Nat.cast_injective heq) (by decide)

end Frequency

end BranchFlow
