import BranchFlow.Proofs.Rounding
import BranchFlow.Proofs.TotalOrder
import BranchFlow.Text

/-!
# Percentages are correctly rounded

A percentage is rounded twice, to 53 bits and then to hundredths, and the first rounding could carry
the second past the middle between two hundredths.  It does not, because there is a gap.  The exact
percentage has a denominator of at most 32 bits.  If it is more than half a hundredth away from the
printed number, it is so by at least one over twice its denominator (`abs_div_sub_le_half_of_near`),
which an error of one part in `2 ^ 53` is too small to bridge (`percent_error_lt`).
-/

namespace BranchFlow

/-! ## Gaps -/

/-- A quotient that is near a number at most half a unit from `h` is at most half a unit from `h`
itself, where near means nearer than the quotients of one denominator are to each other.  Cleared
of the denominator, the distance is a whole number. -/
theorem abs_div_sub_le_half_of_near {n d h : ℕ} {v : ℚ} (hd : 0 < d)
    (hnear : |(n : ℚ) / d - v| < 1 / (2 * d)) (hv : |v - h| ≤ 1 / 2) :
    |(n : ℚ) / d - h| ≤ 1 / 2 := by
  have hden : (0 : ℚ) < 2 * d := mul_pos two_pos (Nat.cast_pos.mpr hd)
  have hclear : |(n : ℚ) / d - h| * (2 * d) = ((|2 * n - 2 * d * h| : ℤ) : ℚ) := by
    calc |(n : ℚ) / d - h| * (2 * d)
        = |((n : ℚ) / d - h) * (2 * d)| := by rw [abs_mul, abs_of_pos hden]
      _ = ((|2 * n - 2 * d * h| : ℤ) : ℚ) := by
          push_cast
          congr 1
          field_simp
  have hlt : |(n : ℚ) / d - h| * (2 * d) < d + 1 := by
    calc |(n : ℚ) / d - h| * (2 * d)
        ≤ (|(n : ℚ) / d - v| + |v - h|) * (2 * d) :=
          mul_le_mul_of_nonneg_right (abs_sub_le _ v _) hden.le
      _ < (1 / (2 * d) + 1 / 2) * (2 * d) :=
          mul_lt_mul_of_pos_right (add_lt_add_of_lt_of_le hnear hv) hden
      _ = d + 1 := by
          field_simp
          ring
  have hle : |(n : ℚ) / d - h| * (2 * d) ≤ d := by
    rw [hclear] at hlt ⊢
    exact_mod_cast Int.lt_add_one_iff.mp (by exact_mod_cast hlt)
  rw [← le_div_iff₀ hden] at hle
  refine hle.trans (le_of_eq ?_)
  field_simp

/-- Numbers that are at most half a unit from two different values are in their order. -/
theorem le_of_abs_sub_le_half {x y : ℚ} {m n : ℕ} (hxy : x < y) (hx : |x - m| ≤ 1 / 2)
    (hy : |y - n| ≤ 1 / 2) : m ≤ n := by
  rw [abs_le] at hx hy
  have hlt : (m : ℚ) < n + 1 := by linarith [hx.1, hy.2]
  exact Nat.lt_succ_iff.mp (by exact_mod_cast hlt)

/-! ## Hundredths -/

namespace Percentage

open Binary64

variable {n d : ℕ}

/-- The second rounding is at most half a hundredth away from the first one. -/
theorem abs_number_sub_hundredths_le (n d : ℕ) :
    |100 * (number n d).value - hundredths n d| ≤ 1 / 2 := by
  have hnearest := abs_div_sub_nearest_le (100 * (number n d).num) (number n d).den_pos
  rw [Nat.cast_mul, Nat.cast_ofNat, mul_div_assoc, num_div_den] at hnearest
  exact hnearest

/-- Quotients of one value are printed alike. -/
theorem hundredths_congr {n' d' : ℕ} (hd : 0 < d) (hd' : 0 < d')
    (h : (n : ℚ) / d = n' / d') : hundredths n d = hundredths n' d' := by
  have hpercent : ((100 * n : ℕ) : ℚ) / d = (100 * n' : ℕ) / d' := by
    rw [Nat.cast_mul, Nat.cast_mul, mul_div_assoc, mul_div_assoc, h]
  refine nearest_congr (number n d).den_pos (number n' d').den_pos ?_
  rw [Nat.cast_mul, Nat.cast_mul, mul_div_assoc, mul_div_assoc, num_div_den, num_div_den,
    number, number, value_ofRatio_congr hd hd' hpercent]

/-- The error of the binary64 number is too small to bridge a gap between percentages. -/
theorem percent_error_lt (hd : 0 < d) (hn : n ≤ d) (hword : d < 2 ^ 32) :
    |((10000 * n : ℕ) : ℚ) / d - 100 * (number n d).value| < 1 / (2 * d) := by
  have hden : (0 : ℚ) < d := Nat.cast_pos.mpr hd
  have hratio : (n : ℚ) / d ≤ 1 := (div_le_one hden).mpr (by exact_mod_cast hn)
  have hbits : (d : ℚ) < 2 ^ 32 := by exact_mod_cast hword
  have herror := abs_div_sub_value_ofRatio_le (100 * n) hd
  rw [Nat.cast_mul, Nat.cast_ofNat, mul_div_assoc] at herror
  calc |((10000 * n : ℕ) : ℚ) / d - 100 * (number n d).value|
      = |100 * (100 * ((n : ℚ) / d) - (number n d).value)| := by
        push_cast
        congr 1
        ring
    _ = 100 * |100 * ((n : ℚ) / d) - (number n d).value| := by
        rw [abs_mul, abs_of_pos (by norm_num)]
    _ ≤ 100 * (100 * ((n : ℚ) / d) / 2 ^ 53) := mul_le_mul_of_nonneg_left herror (by norm_num)
    _ ≤ 10000 / 2 ^ 53 := by linarith
    _ < 1 / (2 * d) := by
        rw [div_lt_div_iff₀ (by norm_num) (mul_pos two_pos hden)]
        linarith

/-- Both roundings together are at most half a hundredth away. -/
theorem abs_percent_sub_hundredths_le (hd : 0 < d) (hn : n ≤ d) (hword : d < 2 ^ 32) :
    |10000 * ((n : ℚ) / d) - hundredths n d| ≤ 1 / 2 := by
  have hhalf := abs_div_sub_le_half_of_near hd (percent_error_lt hd hn hword)
    (abs_number_sub_hundredths_le n d)
  rw [Nat.cast_mul, Nat.cast_ofNat, mul_div_assoc] at hhalf
  exact hhalf

end Percentage

/-! ## Probabilities -/

namespace Probability

open Percentage

variable {p q : Probability}

theorem abs_sub_hundredths_le (p : Probability) :
    |10000 * p.exact - p.hundredths| ≤ 1 / 2 :=
  abs_percent_sub_hundredths_le p.den_pos p.num_le_den_toNat p.den.toNat_lt

theorem exact_le_one (p : Probability) : p.exact ≤ 1 :=
  (div_le_one (Nat.cast_pos.mpr p.den_pos)).mpr (Nat.cast_le.mpr p.num_le_den_toNat)

theorem hundredths_le (p : Probability) : p.hundredths ≤ 10000 := by
  have hnear := (abs_le.mp (abs_sub_hundredths_le p)).1
  have hlt : (p.hundredths : ℚ) < 10000 + 1 := by linarith [p.exact_le_one]
  exact Nat.lt_succ_iff.mp (by exact_mod_cast hlt)

theorem hundredths_eq_of_beq (h : p == q) : p.hundredths = q.hundredths :=
  hundredths_congr p.den_pos q.den_pos (beq_iff_exact_eq.mp h)

/-- The percentages of probabilities are in their order. -/
theorem hundredths_mono (h : p ≤ q) : p.hundredths ≤ q.hundredths := by
  rcases (le_iff_exact_le.mp h).lt_or_eq with hlt | heq
  · exact le_of_abs_sub_le_half (mul_lt_mul_of_pos_left hlt (by norm_num))
      (abs_sub_hundredths_le p) (abs_sub_hundredths_le q)
  · exact (hundredths_eq_of_beq (beq_iff_exact_eq.mpr heq)).le

/-- The percentage is written as its hundredths, with a point before the last two digits. -/
theorem text_of_hundredths (p : Probability) :
    ∃ whole tenths rest, tenths < 10 ∧ rest < 10 ∧
      p.hundredths = 100 * whole + 10 * tenths + rest ∧
      Percentage.text p.num.toNat p.den.toNat
        = toString whole ++ "." ++ toString tenths ++ toString rest :=
  ⟨p.hundredths / 100, p.hundredths / 10 % 10, p.hundredths % 10, by omega, by omega, by omega, rfl⟩

theorem percentage_eq_of_beq (h : p == q) :
    Percentage.text p.num.toNat p.den.toNat = Percentage.text q.num.toNat q.den.toNat := by
  have heq : Percentage.hundredths p.num.toNat p.den.toNat
      = Percentage.hundredths q.num.toNat q.den.toNat := hundredths_eq_of_beq h
  rw [Percentage.text, Percentage.text, heq]

/-- The percentage of a probability is correctly rounded.  It is written after the terms, as a
number of hundredths that is at most half a hundredth from the exact percentage and lies
between zero and a hundred percent.  It does not become less when the probability becomes
greater, so probabilities that are equal in other terms have the same percentage. -/
theorem percentage_correctly_rounded (p q : Probability) :
    |10000 * p.exact - p.hundredths| ≤ 1 / 2 ∧ 0 ≤ p.hundredths ∧ p.hundredths ≤ 10000 ∧
    (∃ whole tenths rest, tenths < 10 ∧ rest < 10 ∧
      p.hundredths = 100 * whole + 10 * tenths + rest ∧
      p.text = toString p.num.toNat ++ " / " ++ toString p.den.toNat ++ " = "
        ++ (toString whole ++ "." ++ toString tenths ++ toString rest) ++ "%") ∧
    (p ≤ q → p.hundredths ≤ q.hundredths) ∧
    (p == q →
      Percentage.text p.num.toNat p.den.toNat = Percentage.text q.num.toNat q.den.toNat) := by
  obtain ⟨whole, tenths, rest, htenths, hrest, hsum, htext⟩ := p.text_of_hundredths
  refine ⟨p.abs_sub_hundredths_le, Nat.zero_le _, p.hundredths_le,
    ⟨whole, tenths, rest, htenths, hrest, hsum, ?_⟩, hundredths_mono, percentage_eq_of_beq⟩
  rw [text, htext]

/-- Two percentages that lie in the middle between hundredths.  `1 / 20000` is no binary64
number, and the first rounding takes it up.  `1 / 32` is one, and the second rounding takes it
to the even neighbour, in other terms as well. -/
theorem percentage_correctly_rounded_at_middle :
    let p : Probability := { num := 1, den := 20000 }
    let q : Probability := { num := 1, den := 32 }
    let q' : Probability := { num := 134217727, den := 4294967264 }
    p ≤ q ∧ p.hundredths ≤ q.hundredths ∧ p.hundredths = 1 ∧ q.hundredths = 312 ∧ q == q' ∧
      Percentage.text q.num.toNat q.den.toNat = Percentage.text q'.num.toNat q'.den.toNat := by
  intro p q q'
  have hpq : p ≤ q := by decide
  have hq : q == q' := by decide
  obtain ⟨-, -, -, -, hmono, -⟩ := percentage_correctly_rounded p q
  obtain ⟨-, -, -, -, -, htext⟩ := percentage_correctly_rounded q q'
  exact ⟨hpq, hmono hpq, by decide +kernel, by decide +kernel, hq, htext hq⟩

end Probability

end BranchFlow
