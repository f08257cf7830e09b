import Biparse.Error
import Biparse.Source.Location

/-!
# Invertible components

The three kinds of component a grammar is put together from. Reading runs them forward: an
initializer, then a fold for each element, then mappings. Printing runs them backward. Every forward
step is given the span of the construct being built. A backward step that does not apply answers
`none`, and the printer then tries something else.
-/

namespace Biparse

/-- A partial bijection between `L` and `R`. -/
structure Mapping (L R : Type) where
  forward : Span → L → Except Error R
  backward : R → Option L

/-- Combines an accumulator with one element; both can be taken back. -/
structure Fold (L E R : Type) where
  forward : Span → L → E → R
  leftInverse : R → Option L
  rightInverse : R → Option E

/-- Supplies the value of a construct that consumed nothing. -/
structure Initializer (T : Type) where
  supply : Span → T
  recognizesEmpty : T → Bool

/-! ## Components for any type -/

namespace Initializer

/-- Supplies a fixed value and recognizes what equals it. -/
def ofValue {T : Type} [BEq T] (value : T) : Initializer T where
  supply _ := value
  recognizesEmpty other := other == value

/-- Supplies the absent value. -/
def absent (T : Type) : Initializer (Option T) where
  supply _ := none
  recognizesEmpty := Option.isNone

/-- How `absent` is shown. -/
def absentDisplay : String := "\x7bnone\x7d"

end Initializer

namespace Mapping

/-- Makes a value present; an absent value has no preimage. -/
def present (T : Type) : Mapping T (Option T) where
  forward _ value := .ok (some value)
  backward result := result

/-- Keeps the span of the construct with the value; backward drops it. -/
def locate (T : Type) : Mapping T (Located T) where
  forward context value := .ok ⟨⟨context⟩, value⟩
  backward located := some located.value

end Mapping

namespace Fold

/-- Pairs the accumulator with the element. -/
def pair (L E : Type) : Fold L E (L × E) where
  forward _ left element := (left, element)
  leftInverse result := some result.1
  rightInverse result := some result.2

/-- Pairs the element with the accumulator, so that a part read second is stored first. -/
def swappedPair (L E : Type) : Fold L E (E × L) where
  forward _ left element := (element, left)
  leftInverse result := some result.2
  rightInverse result := some result.1

end Fold

end Biparse
