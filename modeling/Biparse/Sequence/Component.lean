import Biparse.Component
import Biparse.Sequence.Basic

/-!
# Components that build sequences

The empty start of a list, the fold that appends one element, the fold that makes a sequence of two,
and the mapping that makes a sequence of one.
-/

namespace Biparse.Sequence

variable {α : Type}

/-- Supplies the empty sequence and recognizes it. -/
def initializer (α : Type) : Initializer (Sequence α) where
  supply _ := empty
  recognizesEmpty := isEmpty

/-- How `initializer` is shown. -/
def initializerDisplay : String := "\x7bemptylist\x7d"

/-- The sequence without its last element, and that element, while more than `floor` are left. -/
def splitAbove? (floor : Nat) (s : Sequence α) : Option (Sequence α × α) :=
  if s.size ≤ floor then none else s.splitLast?

/-- Appends one element. The inverses take it off again while the sequence is longer than `floor`:
a list that may be empty has floor 0, one whose first element comes from elsewhere has floor 1. -/
def appendFold (α : Type) (floor : Nat) : Fold (Sequence α) α (Sequence α) where
  forward _ left element := left.push element
  leftInverse result := (result.splitAbove? floor).map Prod.fst
  rightInverse result := (result.splitAbove? floor).map Prod.snd

/-- How `appendFold` is shown. -/
def appendDisplay : String := "\x7bappend\x7d"

/-- Makes a sequence of two elements; the inverses take apart sequences of exactly two. -/
def pairFold (α : Type) : Fold α α (Sequence α) where
  forward _ left element := (empty.push left).push element
  leftInverse result := if result.size = 2 then result.get? 0 else none
  rightInverse result := if result.size = 2 then result.last? else none

/-- Makes a sequence of one element; backward takes apart sequences of exactly one. -/
def singleton (α : Type) : Mapping α (Sequence α) where
  forward _ element := .ok (empty.push element)
  backward result := if result.size = 1 then result.last? else none

end Biparse.Sequence
