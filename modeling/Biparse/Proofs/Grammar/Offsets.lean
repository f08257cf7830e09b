import Biparse.Proofs.Grammar.Backtracking

/-!
# Reading by byte offsets

A stream holds the text that is left, so a node cannot look at the wrong place. Here the same nodes
are run over a whole text with a byte offset in it (`Rule.parseAt`, `Reduction.parseAt`): every look
at the text is a slice from the offset on, and every step that could be fatal is checked. A slice
may start past the end or inside a character, a context span may end before it starts, and a join
may go on for more rounds than there are bytes left.

Started at a character boundary none of this happens, and the two ways of reading come to the same
(`Rule.parseAt_cursor`, `Reduction.parseAt_cursor`). With the invariant of
`Biparse.Proofs.Grammar.Backtracking` this says all that backtracking promises
(`parse_leaves_no_trace`).
-/

namespace Biparse

/-! ## Slices -/

/-- The text from a byte offset on; there is none past the end or inside a character. -/
def sliceFrom? : List Char → Nat → Option (List Char)
  | [], offset => if offset = 0 then some [] else none
  | c :: rest, offset =>
    if offset = 0 then some (c :: rest)
    else if c.utf8Size ≤ offset then sliceFrom? rest (offset - c.utf8Size)
    else none

/-- A byte offset in a text at which a character starts or the text ends. -/
def IsBoundary (text : List Char) (offset : Nat) : Prop := (sliceFrom? text offset).isSome

instance (text : List Char) (offset : Nat) : Decidable (IsBoundary text offset) :=
  inferInstanceAs (Decidable ((sliceFrom? text offset).isSome = true))

theorem sliceFrom?_append (before rest : List Char) :
    sliceFrom? (before ++ rest) (byteCount before) = some rest := by
  induction before with
  | nil => cases rest <;> simp [byteCount, sliceFrom?]
  | cons c before ih =>
      have hpos : 0 < c.utf8Size := c.utf8Size_pos
      rw [byteCount, List.cons_append, sliceFrom?, if_neg (by omega), if_pos (by omega),
        Nat.add_sub_cancel_left]
      exact ih

/-- A stream inside a text holds the slice from its offset on. -/
theorem Stream.Inside.sliceFrom? {text : List Char} {s : Stream} (hs : s.Inside text) :
    Biparse.sliceFrom? text s.pos = some s.rest := by
  obtain ⟨before, rfl, hpos⟩ := hs
  rw [hpos]
  exact sliceFrom?_append before s.rest

theorem Stream.Inside.isBoundary {text : List Char} {s : Stream} (hs : s.Inside text) :
    IsBoundary text s.pos := by
  rw [IsBoundary, hs.sliceFrom?]
  rfl

/-! ## Nodes over a text and an offset -/

/-- A place in a text, and the offset where the construct being reduced started. -/
structure Cursor where
  pos : Nat
  mark : Nat
deriving Repr, DecidableEq

/-- Where a stream stands. -/
def Stream.cursor (s : Stream) : Cursor := ⟨s.pos, s.mark⟩

/-- What would end reading for good, without a way back to another alternative. -/
inductive Fault where
  /-- A slice from an offset that is no character boundary. -/
  | badSlice (offset : Nat)
  /-- A context span that ends before it starts. -/
  | inverted (span : InvertedSpan)
  /-- A join with more rounds than bytes. -/
  | endless
deriving Repr, DecidableEq

namespace Cursor

variable {text : List Char}

/-- The text from the offset on. -/
def slice (text : List Char) (c : Cursor) : Except Fault (List Char) :=
  match sliceFrom? text c.pos with
  | some rest => .ok rest
  | none => .error (.badSlice c.pos)

/-- The cursor after a literal, if that comes next. -/
def eat? (text : List Char) (c : Cursor) (literal : List Char) : Except Fault (Option Cursor) := do
  let rest ← c.slice text
  return if literal.isPrefixOf rest then some { c with pos := c.pos + byteCount literal } else none

/-- The span of the construct being reduced. -/
def span (c : Cursor) : Except Fault Span :=
  (Span.checked (min c.mark c.pos) c.pos).mapError .inverted

/-- Reads the longest word that comes next. -/
def readWord (text : List Char) (c : Cursor) : Except Fault (Option String × Cursor) := do
  match (← c.slice text).takeWhile isWordLetter with
  | [] => return (none, c)
  | letters => return (some (String.ofList letters), { c with pos := c.pos + byteCount letters })

/-- The separator between two items; before the first item there is none. -/
def readSeparator (text separator : List Char) (first : Bool) (c : Cursor) :
    Except Fault (Option Cursor) :=
  if first then .ok (some c) else c.eat? text separator

/-- The rounds of a join, which must not outlast their bound. -/
def readRounds {T : Type} (text : List Char) (item : T → Cursor → Except Fault (Option T × Cursor))
    (separator : List Char) : Nat → Bool → T → Cursor → Except Fault (T × Cursor)
  | 0, _, _, _ => .error .endless
  | bound + 1, first, value, c => do
    match ← c.readSeparator text separator first with
    | none => return (value, c)
    | some after =>
      match ← item value after with
      | (none, c') => return (value, { c' with pos := c.pos })
      | (some next, c') =>
        if c'.pos = c.pos then return (next, c')
        else readRounds text item separator bound false next c'

end Cursor

mutual

/-- Reads a value of `text` from a place on. -/
def Rule.parseAt {T : Type} (text : List Char) :
    Rule T → Cursor → Except Fault (Option T × Cursor)
  | .word, c => c.readWord text
  | .initial initializer, c => return (some (initializer.supply (.empty c.pos)), c)
  | .prefixed literal inner, c => do
    match ← c.eat? text literal.toList with
    | none => return (none, c)
    | some after =>
      match ← inner.parseAt text after with
      | (none, c') => return (none, { c' with pos := c.pos })
      | (some value, c') => return (some value, c')
  | .reduce head tail, c => do
    match ← head.parseAt text { c with mark := c.pos } with
    | (none, _) => return (none, c)
    | (some left, c') =>
      match ← tail.parseAt text left { c' with mark := c.pos } with
      | (none, _) => return (none, c)
      | (some value, c'') => return (some value, { c'' with mark := c.mark })

/-- Reads on in `text` from the value to the left. -/
def Reduction.parseAt {L R : Type} (text : List Char) :
    Reduction L R → L → Cursor → Except Fault (Option R × Cursor)
  | .apply mapping, left, c => do
    let span ← c.span
    return ((mapping.forward span left).toOption, c)
  | .put element fold, left, c => do
    match ← element.parseAt text c with
    | (none, c') => return (none, c')
    | (some value, c') =>
      let span ← c'.span
      return (some (fold.forward span left value), c')
  | .prefixed literal inner, left, c => do
    match ← c.eat? text literal.toList with
    | none => return (none, c)
    | some after =>
      match ← inner.parseAt text left after with
      | (none, c') => return (none, { c' with pos := c.pos })
      | (some value, c') => return (some value, c')
  | .chain first second, left, c => do
    match ← first.parseAt text left c with
    | (none, c') => return (none, { c' with pos := c.pos })
    | (some middle, c') =>
      match ← second.parseAt text middle c' with
      | (none, c'') => return (none, { c'' with pos := c.pos })
      | (some value, c'') => return (some value, c'')
  | .choice _ first second, left, c => do
    match ← first.parseAt text left c with
    | (some value, c') => return (some value, c')
    | (none, c') =>
      match ← second.parseAt text left { c' with pos := c.pos } with
      | (none, c'') => return (none, { c'' with pos := c.pos })
      | (some value, c'') => return (some value, c'')
  | .optional inner, left, c => do
    match ← inner.parseAt text left c with
    | (some value, c') => return (some value, c')
    | (none, c') => return (some left, { c' with pos := c.pos })
  | .join separator item, left, c => do
    let (value, c') ← Cursor.readRounds text (fun value c => item.parseAt text value c)
      separator.toList (byteCount text - c.pos + 1) true left c
    return (some value, c')

end

/-! ## The two ways of reading come to the same -/

/-- What a node read, and where it left the stream. -/
def report {α : Type} (out : Option α × Stream) : Option α × Cursor := (out.1, out.2.cursor)

namespace Stream

variable {text : List Char} {s : Stream}

theorem Inside.slice_cursor (hs : s.Inside text) : s.cursor.slice text = .ok s.rest := by
  unfold Cursor.slice
  rw [show s.cursor.pos = s.pos from rfl, hs.sliceFrom?]

theorem Inside.eat?_cursor (hs : s.Inside text) (literal : List Char) :
    s.cursor.eat? text literal = .ok ((s.eat? literal).map cursor) := by
  unfold Cursor.eat?
  rw [hs.slice_cursor]
  unfold Stream.eat?
  by_cases hpre : literal.isPrefixOf s.rest = true
  · obtain ⟨tail, htail⟩ := List.isPrefixOf_iff_prefix.mp hpre
    have htake : s.rest.take literal.length = literal := by rw [← htail]; simp
    simp [bind, Except.bind, pure, Except.pure, hpre, cursor, Stream.advance, htake]
  · simp [bind, Except.bind, pure, Except.pure, hpre]

theorem span_cursor (s : Stream) : s.cursor.span = .ok s.span := by
  unfold Cursor.span
  rw [show s.cursor.mark = s.mark from rfl, show s.cursor.pos = s.pos from rfl, checked_span]
  rfl

theorem Inside.readWord_cursor (hs : s.Inside text) :
    s.cursor.readWord text = .ok (report (readWord s)) := by
  unfold Cursor.readWord Biparse.readWord
  rw [hs.slice_cursor]
  have htake := List.prefix_iff_eq_take.mp (List.takeWhile_prefix (l := s.rest) isWordLetter)
  simp only [bind, Except.bind]
  cases hletters : s.rest.takeWhile isWordLetter with
  | nil => rfl
  | cons c letters =>
      rw [hletters] at htake
      simp only [report, cursor, Stream.advance, ← htake]
      rfl

theorem Inside.readSeparator_cursor (hs : s.Inside text) (separator : List Char) (first : Bool) :
    s.cursor.readSeparator text separator first
      = .ok ((readSeparator separator first s).map cursor) := by
  unfold Cursor.readSeparator readSeparator
  split
  · rfl
  · exact hs.eat?_cursor separator

end Stream

/-- Every round but the last has taken something off the rest, so a join ends before its bound. -/
theorem Stream.Inside.readRounds_cursor {T : Type} {text : List Char}
    {item : T → Stream → Option T × Stream}
    {itemAt : T → Cursor → Except Fault (Option T × Cursor)} {s : Stream}
    (hs : s.Inside text) (separator : List Char) (first : Bool) (value : T)
    (hitem : ∀ value s, Restores s (item value s))
    (hitemAt : ∀ value (s : Stream), s.Inside text →
      itemAt value s.cursor = .ok (report (item value s)))
    {bound : Nat} (hbound : byteCount s.rest < bound) :
    Cursor.readRounds text itemAt separator bound first value s.cursor
      = .ok ((readRounds item separator bound first value s).1,
          (readRounds item separator bound first value s).2.cursor) := by
  induction bound generalizing first value s with
  | zero => omega
  | succ bound ih =>
      unfold Cursor.readRounds readRounds
      rw [hs.readSeparator_cursor separator first]
      cases hafter : readSeparator separator first s with
      | none => rfl
      | some after =>
          have hsep : s.Ahead after := readSeparator_ahead hafter
          simp only [Option.map_some, bind, Except.bind]
          rw [hitemAt value after (hs.of_ahead hsep)]
          rcases hout : item value after with ⟨_ | next, s'⟩
          · obtain rfl : s' = after := (hitem value after).eq_of_none hout
            rfl
          · have hs' : s.Ahead s' := hsep.trans ((hitem value after).ahead_of_some hout)
            simp only [report]
            by_cases hpos : s'.pos = s.pos
            · rw [if_pos hpos, if_pos (show s'.cursor.pos = s.cursor.pos from hpos)]
              rfl
            · rw [if_neg hpos, if_neg (show ¬s'.cursor.pos = s.cursor.pos from hpos)]
              have hless : byteCount s'.rest < bound :=
                Nat.lt_of_lt_of_le (hs'.byteCount_lt hpos) (Nat.le_of_lt_succ hbound)
              exact ih (hs.of_ahead hs') false next hless

mutual

/-- Reading a value by offsets is reading it from the stream. -/
theorem Rule.parseAt_cursor {T : Type} {text : List Char} :
    ∀ (rule : Rule T) {s : Stream}, s.Inside text →
      rule.parseAt text s.cursor = .ok (report (rule.parse s))
  | .word, s, hs => by
      rw [Rule.parseAt, Rule.parse]
      exact hs.readWord_cursor
  | .initial _, s, hs => by
      rw [Rule.parseAt, Rule.parse]
      rfl
  | .prefixed literal inner, s, hs => by
      rw [Rule.parseAt, Rule.parse, hs.eat?_cursor]
      cases hafter : s.eat? literal.toList with
      | none => rfl
      | some after =>
          have hin := Rule.parseAt_cursor inner (hs.of_ahead (.of_eat? hafter))
          simp only [Option.map_some, bind, Except.bind, hin, report]
          match inner.parse after with
          | (none, _) => rfl
          | (some _, _) => rfl
  | .reduce head tail, s, hs => by
      rw [Rule.parseAt, Rule.parse]
      have hhead := Rule.parseAt_cursor head (s := s.setMark s.pos) hs
      have hrestores := Rule.parse_restores head (s.setMark s.pos)
      rw [show ({ s.cursor with mark := s.cursor.pos } : Cursor)
        = (s.setMark s.pos).cursor from rfl, hhead]
      match head.parse (s.setMark s.pos), hrestores with
      | (none, _), rfl => rfl
      | (some left, s'), hrestores =>
          have hs' : s'.Inside text := Stream.Inside.of_ahead (s := s.setMark s.pos) hs hrestores
          have htail := Reduction.parseAt_cursor tail left (s := s'.setMark s.pos) hs'
          simp only [bind, Except.bind, report]
          rw [show ({ s'.cursor with mark := s.cursor.pos } : Cursor)
            = (s'.setMark s.pos).cursor from rfl, htail]
          match tail.parse left (s'.setMark s.pos) with
          | (none, _) => rfl
          | (some _, _) => rfl

/-- Reading on by offsets is reading on from the stream. -/
theorem Reduction.parseAt_cursor {L R : Type} {text : List Char} :
    ∀ (reduction : Reduction L R) (left : L) {s : Stream}, s.Inside text →
      reduction.parseAt text left s.cursor = .ok (report (reduction.parse left s))
  | .apply mapping, left, s, hs => by
      rw [Reduction.parseAt, Reduction.parse, s.span_cursor]
      rfl
  | .put element fold, left, s, hs => by
      rw [Reduction.parseAt, Reduction.parse, Rule.parseAt_cursor element hs]
      match element.parse s with
      | (none, _) => rfl
      | (some value, s') =>
          simp only [bind, Except.bind, report, s'.span_cursor]
          rfl
  | .prefixed literal inner, left, s, hs => by
      rw [Reduction.parseAt, Reduction.parse, hs.eat?_cursor]
      cases hafter : s.eat? literal.toList with
      | none => rfl
      | some after =>
          have hin := Reduction.parseAt_cursor inner left (hs.of_ahead (.of_eat? hafter))
          simp only [Option.map_some, bind, Except.bind, hin, report]
          match inner.parse left after with
          | (none, _) => rfl
          | (some _, _) => rfl
  | .chain first second, left, s, hs => by
      rw [Reduction.parseAt, Reduction.parse, Reduction.parseAt_cursor first left hs]
      have hrestores := Reduction.parse_restores first left s
      match first.parse left s, hrestores with
      | (none, _), rfl => rfl
      | (some middle, s'), hrestores =>
          have hsecond := Reduction.parseAt_cursor second middle (hs.of_ahead hrestores)
          simp only [bind, Except.bind, report, hsecond]
          match second.parse middle s' with
          | (none, _) => rfl
          | (some _, _) => rfl
  | .choice _ first second, left, s, hs => by
      rw [Reduction.parseAt, Reduction.parse, Reduction.parseAt_cursor first left hs]
      have hrestores := Reduction.parse_restores first left s
      match first.parse left s, hrestores with
      | (some _, _), _ => rfl
      | (none, _), rfl =>
          have hsecond := Reduction.parseAt_cursor second left hs
          simp only [bind, Except.bind, report, Stream.rewind_self]
          rw [show ({ s.cursor with pos := s.cursor.pos } : Cursor) = s.cursor from rfl, hsecond]
          match second.parse left s with
          | (none, _) => rfl
          | (some _, _) => rfl
  | .optional inner, left, s, hs => by
      rw [Reduction.parseAt, Reduction.parse, Reduction.parseAt_cursor inner left hs]
      match inner.parse left s with
      | (some _, _) => rfl
      | (none, _) => rfl
  | .join separator item, left, s, hs => by
      rw [Reduction.parseAt, Reduction.parse]
      have hlength : byteCount text - s.cursor.pos + 1 = byteCount s.rest + 1 := by
        have := hs.pos_add_byteCount
        simp only [Stream.cursor]
        omega
      have hrounds := hs.readRounds_cursor separator.toList true left
        (Reduction.parse_restores item)
        (fun value _ hs' => Reduction.parseAt_cursor item value hs') (Nat.lt_succ_self _)
      rw [hlength, hrounds]
      rfl

end

/-! ## No trace is left -/

/-- A run that was started at `c` and left no trace of what it tried: a failure is back at `c`, and
a success has kept the mark and moved forward, if at all, to a boundary inside the text. -/
def LeavesNoTrace {α : Type} (text : List Char) (c : Cursor) : Option α × Cursor → Prop
  | (none, c') => c' = c
  | (some _, c') =>
    c'.mark = c.mark ∧ c.pos ≤ c'.pos ∧ c'.pos ≤ byteCount text ∧ IsBoundary text c'.pos

theorem Restores.leavesNoTrace {α : Type} {text : List Char} {s : Stream}
    {out : Option α × Stream} (hs : s.Inside text) (h : Restores s out) :
    LeavesNoTrace text s.cursor (report out) := by
  match out, h with
  | (none, _), rfl => rfl
  | (some _, s'), h =>
      have hs' : s'.Inside text := hs.of_ahead h
      have hlength := hs'.pos_add_byteCount
      have hle : s'.pos ≤ byteCount text := by omega
      exact ⟨h.mark_eq, h.pos_le, hle, hs'.isBoundary⟩

/-- Backtracking leaves no trace. Whatever node is started at a character boundary of a text, no
slice and no span inside it is ever at fault, and it comes back without a trace. -/
theorem parse_leaves_no_trace {text : List Char} {s : Stream} (hs : s.Inside text) :
    (∀ {T : Type} (rule : Rule T),
      rule.parseAt text s.cursor = .ok (report (rule.parse s))
        ∧ LeavesNoTrace text s.cursor (report (rule.parse s)))
    ∧ (∀ {L R : Type} (reduction : Reduction L R) (left : L),
      reduction.parseAt text left s.cursor = .ok (report (reduction.parse left s))
        ∧ LeavesNoTrace text s.cursor (report (reduction.parse left s))) :=
  ⟨fun rule => ⟨Rule.parseAt_cursor rule hs, (Rule.parse_restores rule s).leavesNoTrace hs⟩,
   fun reduction left => ⟨Reduction.parseAt_cursor reduction left hs,
    (Reduction.parse_restores reduction left s).leavesNoTrace hs⟩⟩

/-- Behind an accented letter and with a mark far ahead, two words with a comma between them: the
comma is eaten, the second word is missing, and the cursor is back before the first. -/
theorem parse_leaves_no_trace_half_pair :
    (⟨"ab,".toList, 2, 9⟩ : Stream).Inside "éab,".toList
    ∧ (Rule.reduce .word (.put (.prefixed "," .word) (.pair _ _))).parseAt "éab,".toList ⟨2, 9⟩
      = .ok (none, ⟨2, 9⟩) := by
  have hs : (⟨"ab,".toList, 2, 9⟩ : Stream).Inside "éab,".toList := ⟨['é'], by decide, by decide⟩
  exact ⟨hs, ((parse_leaves_no_trace hs).1 _).1⟩

end Biparse
