import BranchFlow.Program.Run

/-!
# Every word is exact

A step computes with words on the way to its result.  `Step.InWidth` says that each of them is the
exact number it is computed for.  The sum of two frequencies is left out, the one operation that
looks at a sum that wrapped around.
-/

namespace BranchFlow

/-- The words of a scaling are exact: the product, both results of the division, the
quotient cut to 64 bits where it is taken, and the remainder cut to 32 bits. -/
structure Frequency.ScalesInWidth (f : Frequency) (r : Ratio) : Prop where
  /-- The product of 128 bits does not wrap around. -/
  product : (f.product r.num).toNat = f.toNat * r.num.toNat
  /-- The quotient is the floor. -/
  quotient : (f.quotient r).toNat = f.toNat * r.num.toNat / r.den.toNat
  /-- The remainder is what the floor leaves over. -/
  remainder : (f.remainder r).toNat = f.toNat * r.num.toNat % r.den.toNat
  /-- A quotient that is taken over keeps its value in 64 bits. -/
  narrow_quotient : (f.quotient r).toNat < UInt64.size →
    ((f.quotient r).setWidth 64).toNat = (f.quotient r).toNat
  /-- The remainder keeps its value in 32 bits. -/
  narrow_remainder : ((f.remainder r).setWidth 32).toNat = (f.remainder r).toNat

/-- The two cross products of 64 bits do not wrap around. -/
structure Ratio.ComparesInWidth (a b : Ratio) : Prop where
  /-- The product of the first numerator. -/
  fst : (a.cross b).1.toNat = a.num.toNat * b.den.toNat
  /-- The product of the second numerator. -/
  snd : (a.cross b).2.toNat = b.num.toNat * a.den.toNat

/-- The difference of 32 bits is the difference of integers. -/
def Probability.ComplementsInWidth (p : Probability) : Prop :=
  (p.complement.num.toNat : Int) = (p.den.toNat : Int) - (p.num.toNat : Int)

variable {m n : Nat}

/-- Every word that a step computes in a state is exact. -/
def Step.InWidth (s : State m n) : Step m n → Prop
  | .scale t num den => ∀ h : den ≠ 0, (s.frequency t).ScalesInWidth ⟨num, den, h⟩
  | .scaleBy t p => (s.frequency t).ScalesInWidth (s.probability p).toRatio
  | .multiply _ a p => (s.frequency a).ScalesInWidth (s.probability p).toRatio
  | .divide _ a p =>
      ∀ h : (s.probability p).num ≠ 0, (s.frequency a).ScalesInWidth ((s.probability p).swap h)
  | .complement _ a => (s.probability a).ComplementsInWidth
  | .max _ a b | .min _ a b | .compareProbabilities a b =>
      (s.probability a).ComparesInWidth (s.probability b).toRatio
  | .setFrequency .. | .setProbability .. | .add .. | .sum .. | .make .. | .check ..
  | .compareFrequencies .. | .relative _ | .showFrequency _ | .showProbability _ => True

/-! ## No step leaves its words -/

theorem Frequency.scalesInWidth (f : Frequency) (r : Ratio) : f.ScalesInWidth r := by
  have hrem : (f.remainder r).toNat < UInt32.size := by
    rw [f.toNat_remainder]
    exact Nat.lt_trans (Nat.mod_lt _ r.den_pos) r.den.toNat_lt_size
  constructor
  case product => exact f.toNat_product r.num
  case quotient => exact f.toNat_quotient r
  case remainder => exact f.toNat_remainder r
  case narrow_quotient =>
    intro hquot
    rw [BitVec.toNat_setWidth, Nat.mod_eq_of_lt hquot]
  case narrow_remainder => rw [BitVec.toNat_setWidth, Nat.mod_eq_of_lt hrem]

theorem Ratio.comparesInWidth (a b : Ratio) : a.ComparesInWidth b :=
  ⟨a.toNat_cross_fst b, a.toNat_cross_snd b⟩

theorem Probability.complementsInWidth (p : Probability) : p.ComplementsInWidth := by
  have := p.num_le_den_toNat
  rw [ComplementsInWidth, p.toNat_complement_num]
  omega

/-- Every word on the way to the result of a step is exact, in every state. -/
theorem Step.inWidth (s : State m n) (t : Step m n) : t.InWidth s := by
  cases t with
  | scale t num den => exact fun h => Frequency.scalesInWidth _ _
  | scaleBy t p => exact Frequency.scalesInWidth _ _
  | multiply t a p => exact Frequency.scalesInWidth _ _
  | divide t a p => exact fun h => Frequency.scalesInWidth _ _
  | complement t a => exact Probability.complementsInWidth _
  | max t a b => exact Ratio.comparesInWidth _ _
  | min t a b => exact Ratio.comparesInWidth _ _
  | compareProbabilities a b => exact Ratio.comparesInWidth _ _
  | _ => trivial

end BranchFlow
