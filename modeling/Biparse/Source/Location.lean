import Biparse.Source.LineIndex
import Biparse.Source.Span

/-!
# Locations

Where in the source a value was read from, captured once and kept beside the value.
-/

namespace Biparse

/-- The place in the source a value came from. -/
structure Location where
  span : Span
deriving Repr, DecidableEq

namespace Location

/-- The short form for people. -/
def display (location : Location) : String :=
  s!"[{location.span.start}:{location.span.stop}]"

/-- Line and column of the first byte. -/
def lineColumn (location : Location) (index : LineIndex) : Nat × Nat :=
  index.lineColumn location.span.start

end Location

/-- A value with the place it came from. -/
structure Located (α : Type) where
  location : Location
  value : α
deriving Repr, DecidableEq

end Biparse
