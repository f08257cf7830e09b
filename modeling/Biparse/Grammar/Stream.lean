import Biparse.Source.Span

/-!
# Input streams

The text still to be read, the byte offset it starts at, and the mark: the offset where the
construct being reduced started. A stream stands inside a text when what it has left is the text
from its offset on.
-/

namespace Biparse

/-- Number of bytes of characters in UTF-8. -/
def byteCount : List Char → Nat
  | [] => 0
  | c :: rest => c.utf8Size + byteCount rest

/-- A place in a text being read. -/
structure Stream where
  rest : List Char
  pos : Nat
  mark : Nat
deriving Repr, DecidableEq

@[simp] theorem byteCount_append (a b : List Char) :
    byteCount (a ++ b) = byteCount a + byteCount b := by
  induction a with
  | nil => simp [byteCount]
  | cons c rest ih => simp [byteCount, ih, Nat.add_assoc]

theorem byteCount_pos {text : List Char} (h : text ≠ []) : 0 < byteCount text := by
  cases text with
  | nil => exact absurd rfl h
  | cons c rest => exact Nat.add_pos_left c.utf8Size_pos _

namespace Stream

/-- The start of a text. -/
def ofText (text : String) : Stream := ⟨text.toList, 0, 0⟩

/-- Stands at a character boundary of `text`, with exactly the text from there on left. -/
def Inside (text : List Char) (s : Stream) : Prop :=
  ∃ before, text = before ++ s.rest ∧ s.pos = byteCount before

/-- The stream after its next `n` characters. -/
def advance (s : Stream) (n : Nat) : Stream :=
  { s with rest := s.rest.drop n, pos := s.pos + byteCount (s.rest.take n) }

/-- The stream after a literal, if that comes next. -/
def eat? (s : Stream) (literal : List Char) : Option Stream :=
  if literal.isPrefixOf s.rest then some (s.advance literal.length) else none

/-- The stream back at the place of `start`; the mark stays. -/
def rewind (s start : Stream) : Stream := { s with rest := start.rest, pos := start.pos }

/-- The stream with its mark at an offset. -/
def setMark (s : Stream) (mark : Nat) : Stream := { s with mark := mark }

/-- The span of the construct being reduced. -/
def span (s : Stream) : Span := ⟨min s.mark s.pos, s.pos⟩

/-! ## Moving about -/

@[simp] theorem advance_zero (s : Stream) : s.advance 0 = s := by
  simp [advance, byteCount]

@[simp] theorem rest_advance (s : Stream) (n : Nat) : (s.advance n).rest = s.rest.drop n := rfl

@[simp] theorem mark_advance (s : Stream) (n : Nat) : (s.advance n).mark = s.mark := rfl

@[simp] theorem rewind_self (s : Stream) : s.rewind s = s := rfl

@[simp] theorem rewind_advance (s : Stream) (n : Nat) : (s.advance n).rewind s = s := rfl

theorem advance_advance (s : Stream) (n m : Nat) :
    (s.advance n).advance m = s.advance (n + m) := by
  simp [advance, List.take_add, Nat.add_assoc]

theorem pos_le_advance (s : Stream) (n : Nat) : s.pos ≤ (s.advance n).pos :=
  Nat.le_add_right _ _

theorem pos_lt_advance {s : Stream} {n : Nat} (h : s.rest.take n ≠ []) :
    s.pos < (s.advance n).pos := Nat.lt_add_of_pos_right (byteCount_pos h)

/-- What an advance takes off the rest it adds to the offset. -/
theorem pos_add_byteCount_advance (s : Stream) (n : Nat) :
    (s.advance n).pos + byteCount (s.advance n).rest = s.pos + byteCount s.rest := by
  have hsplit : byteCount (s.rest.take n) + byteCount (s.rest.drop n) = byteCount s.rest := by
    rw [← byteCount_append, List.take_append_drop]
  simp only [advance]
  omega

/-! ## Standing inside a text -/

theorem inside_ofText (text : String) : (ofText text).Inside text.toList := ⟨[], rfl, rfl⟩

/-- Advancing by whole characters keeps a stream inside its text. -/
theorem Inside.advance {text : List Char} {s : Stream} (h : s.Inside text) (n : Nat) :
    (s.advance n).Inside text := by
  obtain ⟨before, htext, hpos⟩ := h
  refine ⟨before ++ s.rest.take n, ?_, ?_⟩
  · simp [Stream.advance, htext]
  · simp [Stream.advance, hpos]

/-- Inside a text, the offset and the bytes left make up its length. -/
theorem Inside.pos_add_byteCount {text : List Char} {s : Stream} (h : s.Inside text) :
    s.pos + byteCount s.rest = byteCount text := by
  obtain ⟨before, rfl, hpos⟩ := h
  rw [byteCount_append, hpos]

theorem eat?_eq_some_iff {s after : Stream} {literal : List Char} :
    s.eat? literal = some after ↔
      literal.isPrefixOf s.rest = true ∧ s.advance literal.length = after := by
  grind [eat?]

/-- The context span of a stream is never inverted. -/
theorem checked_span (s : Stream) : Span.checked (min s.mark s.pos) s.pos = .ok s.span :=
  Span.checked_eq_ok_iff.2 ⟨Nat.min_le_right _ _, rfl⟩

end Stream

end Biparse
