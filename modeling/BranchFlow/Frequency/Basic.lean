import BranchFlow.Ratio

/-!
# Block frequencies

A `Frequency` says how often a block runs.  It counts in units of which the entry block of a
function has `2 ^ 14`, and fits in 64 bits.  A count that does not fit is held at the greatest one,
`ceiling`.  Addition stops there instead of wrapping around (`toNat_add`).
-/

namespace BranchFlow

/-- How often a block runs, in units of which the entry block has `2 ^ 14`. -/
structure Frequency where
  /-- The number of units. -/
  units : UInt64
deriving DecidableEq, Hashable, Repr

namespace Frequency

/-- The frequency of the entry block. -/
def entry : Frequency := ⟨16384⟩

/-- The greatest frequency, which stands for everything above it too. -/
def ceiling : Frequency := ⟨0xffffffffffffffff⟩

instance : Zero Frequency := ⟨⟨0⟩⟩

/-- A block of which nothing is known does not run. -/
instance : Inhabited Frequency := ⟨0⟩

/-- The number of units as a natural number. -/
def toNat (f : Frequency) : Nat := f.units.toNat

theorem toNat_lt (f : Frequency) : f.toNat < UInt64.size := f.units.toNat_lt_size

theorem toNat_inj {f g : Frequency} : f.toNat = g.toNat ↔ f = g := by
  rw [toNat, toNat, UInt64.toNat_inj]
  cases f
  cases g
  simp

@[simp] theorem toNat_zero : (0 : Frequency).toNat = 0 := rfl

@[simp] theorem toNat_ceiling : ceiling.toNat = UInt64.size - 1 := rfl

/-- Whether the block never runs. -/
def isZero (f : Frequency) : Bool := f == 0

/-! ## Order -/

instance : Ord Frequency := ⟨fun f g => compare f.units g.units⟩
instance : LE Frequency := ⟨fun f g => f.units ≤ g.units⟩
instance : LT Frequency := ⟨fun f g => f.units < g.units⟩
instance : DecidableLE Frequency := fun f g => inferInstanceAs (Decidable (f.units ≤ g.units))
instance : DecidableLT Frequency := fun f g => inferInstanceAs (Decidable (f.units < g.units))
instance : Max Frequency := maxOfLe
instance : Min Frequency := minOfLe

theorem le_iff_toNat_le {f g : Frequency} : f ≤ g ↔ f.toNat ≤ g.toNat := UInt64.le_iff_toNat_le

theorem lt_iff_toNat_lt {f g : Frequency} : f < g ↔ f.toNat < g.toNat := UInt64.lt_iff_toNat_lt

/-! ## Addition -/

/-- The sum of two frequencies, held at the ceiling.  A sum of words wrapped around
if and only if it is less than its first term. -/
def add (f g : Frequency) : Frequency :=
  let s := f.units + g.units
  if s < f.units then ceiling else ⟨s⟩

instance : Add Frequency := ⟨add⟩

/-- The sum of a list of frequencies, from the left. -/
def sum (fs : List Frequency) : Frequency := fs.foldl (· + ·) 0

/-- Whether no exact sum is above the ceiling when frequencies are added to a first one
from the left. -/
def AdditionsFit : Frequency → List Frequency → Prop
  | _, [] => True
  | f, g :: gs => f.toNat + g.toNat < UInt64.size ∧ AdditionsFit (f + g) gs

/-- Addition is that of the natural numbers, held at the ceiling. -/
theorem toNat_add (f g : Frequency) :
    (f + g).toNat = min (UInt64.size - 1) (f.toNat + g.toNat) := by
  have hsize : UInt64.size = 18446744073709551616 := rfl
  have hf : f.units.toNat < UInt64.size := f.toNat_lt
  have hg : g.units.toNat < UInt64.size := g.toNat_lt
  have hs : (f.units + g.units).toNat = (f.units.toNat + g.units.toNat) % 2 ^ 64 :=
    UInt64.toNat_add ..
  show (if f.units + g.units < f.units then ceiling else ⟨f.units + g.units⟩ : Frequency).toNat
    = min (UInt64.size - 1) (f.units.toNat + g.units.toNat)
  split
  next h =>
    rw [UInt64.lt_iff_toNat_lt] at h
    rw [toNat_ceiling]
    omega
  next h =>
    rw [UInt64.lt_iff_toNat_lt] at h
    show (f.units + g.units).toNat = _
    omega

end Frequency

end BranchFlow
