import BranchFlow.Binary64
import BranchFlow.Frequency.Basic
import BranchFlow.Probability.Basic

/-!
# Text for the reader

A percentage has two roundings.  A hundred times the numerator, which is exact, over the denominator
gives a binary64 number.  The exact value of that number is then rounded to hundredths, ties to
even.  So `1 / 32`, which is exactly `3.125` percent, is written `3.12`.
-/

namespace BranchFlow

/-! ## Records -/

/-- A name with named fields, whose values are already text. -/
structure Record where
  /-- The name of the record. -/
  name : String
  /-- The fields in the order in which they are written, each with its value. -/
  fields : List (String × String)
deriving DecidableEq, Repr

namespace Record

/-- A text in braces. -/
def braced (t : String) : String := String.singleton '{' ++ t ++ String.singleton '}'

/-- One field, the same in both layouts. -/
def field (f : String × String) : String := f.1 ++ ": " ++ f.2

/-- The record on one line. -/
def inlineText (r : Record) : String :=
  match r.fields with
  | [] => r.name
  | fs => r.name ++ " " ++ braced (" " ++ String.intercalate ", " (fs.map field) ++ " ")

/-- The record with one line for each field. -/
def blockText (r : Record) : String :=
  match r.fields with
  | [] => r.name
  | fs => r.name ++ " " ++ braced ("\n" ++ String.join (fs.map fun f => "    " ++ field f ++ ",\n"))

example : (mk "Point" [("x", "1"), ("y", "2")]).inlineText = "Point " ++ braced " x: 1, y: 2 " := by
  decide

end Record

/-- The cause, with its numbers as fields. -/
def InvalidRatio.record : InvalidRatio → Record
  | .zeroDenominator => ⟨"ZeroDenominator", []⟩
  | .numeratorExceedsDenominator n d =>
      ⟨"NumeratorExceedsDenominator",
        [("numerator", toString n.toNat), ("denominator", toString d.toNat)]⟩

/-! ## Percentages -/

namespace Percentage

/-- The percentage as a binary64 number. -/
def number (num den : Nat) : Binary64 := .ofRatio (100 * num) den

/-- The percentage in hundredths. -/
def hundredths (num den : Nat) : Nat :=
  nearest (100 * (number num den).num) (number num den).den

/-- The percentage with two decimals. -/
def text (num den : Nat) : String :=
  let h := hundredths num den
  toString (h / 100) ++ "." ++ toString (h / 10 % 10) ++ toString (h % 10)

example : hundredths 1 32 = 312 ∧ hundredths 3 32 = 938 := by decide +kernel
example : text 2 3 = "66.67" ∧ text 1 4294967295 = "0.00" := by decide +kernel

end Percentage

/-! ## Probabilities -/

namespace Probability

/-- The percentage of the probability in hundredths. -/
def hundredths (p : Probability) : Nat := Percentage.hundredths p.num.toNat p.den.toNat

/-- The terms and the percentage. -/
def text (p : Probability) : String :=
  toString p.num.toNat ++ " / " ++ toString p.den.toNat ++ " = "
    ++ Percentage.text p.num.toNat p.den.toNat ++ "%"

/-- The terms as fields. -/
def record (p : Probability) : Record :=
  ⟨"BranchProbability", [("numerator", toString p.num.toNat), ("denominator", toString p.den.toNat)]⟩

example : impossible.text = "0 / 1 = 0.00%" := by decide +kernel

end Probability

/-! ## Frequencies -/

namespace Frequency

/-- The number of units in decimal. -/
def text (f : Frequency) : String := toString f.toNat

/-- The number of units as a field. -/
def record (f : Frequency) : Record := ⟨"BlockFrequency", [("frequency", f.text)]⟩

/-- How often the block runs for each run of the entry block.  The units are rounded to 53 bits
first.  The entry block has a power of two, so the division only moves the exponent. -/
def entryRelative (f : Frequency) : Binary64 := .ofNat f.toNat / .ofNat entry.toNat

example : (⟨8192⟩ : Frequency).entryRelative.bits = 0x3fe0000000000000 := by decide +kernel
example : (0 : Frequency).entryRelative.bits = 0 := by decide +kernel

end Frequency

end BranchFlow
