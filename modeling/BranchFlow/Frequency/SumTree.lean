import BranchFlow.Frequency.Basic

/-!
# Sums in any order and grouping

An addition can be written in four ways: as a call, with the operator, in place on the first of
the two, and through an interface that other types share.  A `SumTree` is a way to add any number of
frequencies.  Each of its nodes is an addition, written in a way of its own.
-/

namespace BranchFlow

/-! ## One addition -/

/-- Types whose sums are held at a greatest value. -/
class SaturatingAdd (α : Type) where
  /-- The sum of two, held at the greatest value. -/
  saturatingAdd : α → α → α

instance : SaturatingAdd Frequency := ⟨Frequency.add⟩

namespace Frequency

/-- Adds a frequency to the one at hand, which the sum replaces. -/
def addInPlace (g : Frequency) : StateM Frequency Unit := modify fun f => f.add g

/-- The sum of frequencies that are only referred to.  Each is read, and the copies are
summed. -/
def sumOf {ι : Type} (read : ι → Frequency) (refs : List ι) : Frequency := sum (refs.map read)

end Frequency

/-- How an addition is written. -/
inductive Addition where
  /-- As a call. -/
  | call
  /-- With the operator. -/
  | operator
  /-- In place, on the first of the two. -/
  | inPlace
  /-- Through the interface of types whose sums are held at a greatest value. -/
  | interface
deriving DecidableEq, Repr

/-- The sum of two frequencies, as it is written. -/
def Addition.apply : Addition → Frequency → Frequency → Frequency
  | call, f, g => f.add g
  | operator, f, g => f + g
  | inPlace, f, g => ((Frequency.addInPlace g).run f).2
  | interface, f, g => SaturatingAdd.saturatingAdd f g

/-! ## Any number of additions -/

/-- A grouping of additions. -/
inductive SumTree where
  /-- A frequency that is added. -/
  | leaf (f : Frequency)
  /-- The addition of what two groupings come to. -/
  | node (a : Addition) (left right : SumTree)

namespace SumTree

/-- The frequencies that are added, from first to last. -/
def leaves : SumTree → List Frequency
  | leaf f => [f]
  | node _ l r => l.leaves ++ r.leaves

/-- What the additions come to. -/
def value : SumTree → Frequency
  | leaf f => f
  | node a l r => a.apply l.value r.value

end SumTree

end BranchFlow
