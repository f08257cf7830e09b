/-!
# Line index

Maps byte offsets of a text to lines and columns, both counted from zero. Only the newline character
ends a line. The index holds the offset at which each line starts, in increasing order; an offset
belongs to the last line that starts at or before it, so offsets past the end of the text keep
counting columns on the last line.
-/

namespace Biparse

/-- The offsets just past each newline of the text, which itself starts at `offset`. -/
def newlineEnds (offset : Nat) : List Char → List Nat
  | [] => []
  | c :: rest =>
    let next := offset + c.utf8Size
    if c = '\n' then next :: newlineEnds next rest else newlineEnds next rest

/-- Where each line of a text starts. Line 0 starts at offset 0 and is always there. -/
structure LineIndex where
  laterStarts : List Nat
deriving Repr

namespace LineIndex

/-- The index of a text. -/
def ofText (text : String) : LineIndex := ⟨newlineEnds 0 text.toList⟩

/-- All line starts, in order. -/
def starts (index : LineIndex) : List Nat := 0 :: index.laterStarts

/-- Number of lines; an empty text has one. -/
def lineCount (index : LineIndex) : Nat := index.starts.length

/-- Offset at which a line starts, if there is such a line. -/
def lineStart? (index : LineIndex) (line : Nat) : Option Nat := index.starts[line]?

/-- Walks the remaining line starts while they lie at or before `offset`, carrying the line reached
and where it starts. -/
def locate (offset line start : Nat) : List Nat → Nat × Nat
  | [] => (line, offset - start)
  | next :: rest =>
    if next ≤ offset then locate offset (line + 1) next rest else (line, offset - start)

/-- Line and column of an offset. -/
def lineColumn (index : LineIndex) (offset : Nat) : Nat × Nat :=
  locate offset 0 0 index.laterStarts

end LineIndex

end Biparse
