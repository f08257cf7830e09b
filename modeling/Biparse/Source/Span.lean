/-!
# Byte spans

A span is a half-open range of byte offsets. Spans are built checked (`Span.checked`), so a built
span has its end at or after its start; one written down field by field may be inverted, and every
operation says what it does then. `Span.cover` is the smallest checked span around two others: it
exists as soon as one of the two is well formed.
-/

namespace Biparse

/-- A range of byte offsets, from `start` up to but not including `stop`. -/
structure Span where
  start : Nat
  stop : Nat
deriving Repr, DecidableEq

/-- Bounds that make no span because the end comes before the start. -/
structure InvertedSpan where
  start : Nat
  stop : Nat
deriving Repr, DecidableEq

/-- The wording of the complaint. -/
def InvertedSpan.message (e : InvertedSpan) : String :=
  s!"Span end ({e.stop}) < start ({e.start})"

namespace Span

/-- A span whose end does not come before its start. -/
def WellFormed (s : Span) : Prop := s.start ≤ s.stop

instance (s : Span) : Decidable s.WellFormed := inferInstanceAs (Decidable (s.start ≤ s.stop))

/-- The zero-width span at an offset. -/
def empty (offset : Nat) : Span := ⟨offset, offset⟩

/-- The span from `start` to `stop`, unless it would be inverted. -/
def checked (start stop : Nat) : Except InvertedSpan Span :=
  if start ≤ stop then .ok ⟨start, stop⟩ else .error ⟨start, stop⟩

/-- Number of bytes covered; an inverted span has none to count. -/
def length? (s : Span) : Option Nat :=
  if s.start ≤ s.stop then some (s.stop - s.start) else none

/-- Whether start and end coincide. -/
def isEmpty (s : Span) : Bool := s.start == s.stop

/-- The smallest span covering both; refused when the greater end is below the lesser start. -/
def cover (a b : Span) : Except InvertedSpan Span :=
  checked (min a.start b.start) (max a.stop b.stop)

/-- The ways a span is given: by checked bounds, by one offset, or by unchecked bounds. -/
inductive Form where
  | range (start stop : Nat)
  | point (offset : Nat)
  | raw (start stop : Nat)
deriving Repr, DecidableEq

/-- The span a form stands for. -/
def Form.resolve : Form → Except InvertedSpan Span
  | range start stop => checked start stop
  | point offset => .ok (empty offset)
  | raw start stop => .ok ⟨start, stop⟩

theorem checked_eq_ok_iff {start stop : Nat} {s : Span} :
    checked start stop = .ok s ↔ start ≤ stop ∧ s = ⟨start, stop⟩ := by
  grind [checked]

theorem checked_eq_error_iff {start stop : Nat} {e : InvertedSpan} :
    checked start stop = .error e ↔ stop < start ∧ e = ⟨start, stop⟩ := by
  grind [checked]

theorem wellFormed_of_checked {start stop : Nat} {s : Span} (h : checked start stop = .ok s) :
    s.WellFormed := by
  obtain ⟨hle, rfl⟩ := checked_eq_ok_iff.1 h
  exact hle

end Span

end Biparse
