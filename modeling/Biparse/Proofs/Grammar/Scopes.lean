import Biparse.Proofs.Grammar.Backtracking

/-!
# Reading by scopes

The start of the construct being reduced stands in the stream, as a mark that every construct inside
overwrites and has to put back. Here the same grammars are read without it: a place has no mark, a
failure has no place to go back from, and what components are told of where they are is an argument
that a construct hands to its reductions and nothing inside can change (`Rule.readFrom`,
`Reduction.readWithin`). So it is plain which span that is: from where the construct was started to
where reading stands.

Reading the stream comes to the same (`Rule.parse_eq_readFrom`, `Reduction.parse_eq_readWithin`).
What carries this is that the mark tells the spans of the scope at every place from here on
(`Stream.Tells`); that stays so because nodes only move forward (`Restores`).
-/

namespace Biparse

/-- What is left of a text, and the byte offset it starts at. -/
structure Place where
  rest : List Char
  pos : Nat
deriving Repr, DecidableEq

/-! ## Reading without a mark -/

namespace Place

def advance (p : Place) (n : Nat) : Place :=
  ⟨p.rest.drop n, p.pos + byteCount (p.rest.take n)⟩

def eat? (p : Place) (literal : List Char) : Option Place :=
  if literal.isPrefixOf p.rest then some (p.advance literal.length) else none

def readWord (p : Place) : Option (String × Place) :=
  match p.rest.takeWhile isWordLetter with
  | [] => none
  | letters => some (String.ofList letters, p.advance letters.length)

/-- The place after the separator; before the first item there is none. -/
def readSeparator (separator : List Char) (first : Bool) (p : Place) : Option Place :=
  if first then some p else p.eat? separator

/-- The rounds of a join. One that fails, at the separator or at the item, changes nothing. -/
def readRounds {T : Type} (item : T → Place → Option (T × Place)) (separator : List Char) :
    Nat → Bool → T → Place → T × Place
  | 0, _, value, p => (value, p)
  | bound + 1, first, value, p =>
    match (p.readSeparator separator first).bind (item value) with
    | none => (value, p)
    | some (next, p') =>
      if p'.pos = p.pos then (next, p') else readRounds item separator bound false next p'

end Place

mutual

/-- Reads a value. The reductions of a construct that starts here are told spans from here on. -/
def Rule.readFrom {T : Type} : Rule T → Place → Option (T × Place)
  | .word, p => p.readWord
  | .initial initializer, p => some (initializer.supply (.empty p.pos), p)
  | .prefixed literal inner, p => do
    let after ← p.eat? literal.toList
    inner.readFrom after
  | .reduce head tail, p => do
    let (left, p') ← head.readFrom p
    tail.readWithin (Span.mk p.pos) left p'

/-- Reads on from the value to the left. Components are told the span that `told` gives for where
reading stands. -/
def Reduction.readWithin {L R : Type} (told : Nat → Span) :
    Reduction L R → L → Place → Option (R × Place)
  | .apply mapping, left, p => do
    let value ← (mapping.forward (told p.pos) left).toOption
    return (value, p)
  | .put element fold, left, p => do
    let (value, p') ← element.readFrom p
    return (fold.forward (told p'.pos) left value, p')
  | .prefixed literal inner, left, p => do
    let after ← p.eat? literal.toList
    inner.readWithin told left after
  | .chain first second, left, p => do
    let (middle, p') ← first.readWithin told left p
    second.readWithin told middle p'
  | .choice _ first second, left, p =>
    (first.readWithin told left p).or (second.readWithin told left p)
  | .optional inner, left, p => some ((inner.readWithin told left p).getD (left, p))
  | .join separator item, left, p =>
    some (p.readRounds (fun value p => item.readWithin told value p) separator.toList
      (byteCount p.rest + 1) true left)

end

/-! ## The stream at a place -/

namespace Stream

variable {α : Type}

def place (s : Stream) : Place := ⟨s.rest, s.pos⟩

/-- The stream at another place, with its mark. -/
def moveTo (s : Stream) (p : Place) : Stream := { s with rest := p.rest, pos := p.pos }

@[simp] theorem place_moveTo (s : Stream) (p : Place) : (s.moveTo p).place = p := rfl

@[simp] theorem place_setMark (s : Stream) (mark : Nat) : (s.setMark mark).place = s.place := rfl

/-- The stream after reading that came to `out`: a failure leaves it alone. -/
def settle (s : Stream) : Option (α × Place) → Option α × Stream
  | none => (none, s)
  | some (value, p) => (some value, s.moveTo p)

theorem eat?_eq (s : Stream) (literal : List Char) :
    s.eat? literal = (s.place.eat? literal).map s.moveTo := by
  unfold eat? Place.eat?
  rw [apply_ite (Option.map s.moveTo)]
  rfl

theorem readWord_eq (s : Stream) : readWord s = s.settle s.place.readWord := by
  unfold readWord Place.readWord
  rw [show s.place.rest = s.rest from rfl]
  cases s.rest.takeWhile isWordLetter <;> rfl

theorem readSeparator_eq (separator : List Char) (first : Bool) (s : Stream) :
    readSeparator separator first s = (s.place.readSeparator separator first).map s.moveTo := by
  unfold readSeparator Place.readSeparator
  split
  · rfl
  · exact s.eat?_eq separator

/-- From here on the mark says the spans that `told` gives. -/
def Tells (s : Stream) (told : Nat → Span) : Prop :=
  ∀ pos, s.pos ≤ pos → told pos = ⟨min s.mark pos, pos⟩

theorem Tells.span {s : Stream} {told : Nat → Span} (h : s.Tells told) : s.span = told s.pos :=
  (h s.pos (Nat.le_refl _)).symm

theorem Tells.moveTo {s : Stream} {told : Nat → Span} (h : s.Tells told) {p : Place}
    (hahead : s.Ahead (s.moveTo p)) : (s.moveTo p).Tells told :=
  fun pos hpos => h pos (Nat.le_trans hahead.pos_le hpos)

/-- Any stream tells what its own mark says, wherever that stands. -/
theorem tells_span (s : Stream) : s.Tells (fun pos => ⟨min s.mark pos, pos⟩) := fun _ _ => rfl

/-- A mark that is not ahead says the spans that start at it. -/
theorem tells_mk {s : Stream} (hbehind : s.mark ≤ s.pos) : s.Tells (Span.mk s.mark) :=
  fun _ hpos => by rw [Nat.min_eq_left (Nat.le_trans hbehind hpos)]

theorem readRounds_eq {T : Type} {item : T → Stream → Option T × Stream}
    {itemFrom : T → Place → Option (T × Place)} {told : Nat → Span} (separator : List Char)
    (hrestores : ∀ value s, Restores s (item value s))
    (hitem : ∀ value (s : Stream), s.Tells told → item value s = s.settle (itemFrom value s.place))
    (bound : Nat) (first : Bool) (value : T) {s : Stream} (htells : s.Tells told) :
    readRounds item separator bound first value s
      = ((s.place.readRounds itemFrom separator bound first value).1,
          s.moveTo (s.place.readRounds itemFrom separator bound first value).2) := by
  induction bound generalizing first value s with
  | zero => rfl
  | succ bound ih =>
      unfold readRounds Place.readRounds
      have hafter := readSeparator_eq separator first s
      cases hsep : s.place.readSeparator separator first with
      | none =>
          rw [hsep] at hafter
          rw [hafter]
          rfl
      | some p =>
          rw [hsep, Option.map_some] at hafter
          have hahead : s.Ahead (s.moveTo p) := readSeparator_ahead hafter
          have hround : item value (s.moveTo p) = (s.moveTo p).settle (itemFrom value p) :=
            hitem value (s.moveTo p) (htells.moveTo hahead)
          have hplaces := hrestores value (s.moveTo p)
          rw [hround] at hplaces
          rw [hafter, Option.bind_some]
          simp only [hround]
          cases hout : itemFrom value p with
          | none => rfl
          | some out =>
              obtain ⟨next, p'⟩ := out
              rw [hout] at hplaces
              have hahead' : s.Ahead (s.moveTo p') := hahead.trans hplaces
              simp only [settle]
              by_cases hpos : p'.pos = s.pos
              · rw [if_pos (show ((s.moveTo p).moveTo p').pos = s.pos from hpos),
                  if_pos (show p'.pos = s.place.pos from hpos)]
                rfl
              · rw [if_neg (show ¬ ((s.moveTo p).moveTo p').pos = s.pos from hpos),
                  if_neg (show ¬ p'.pos = s.place.pos from hpos)]
                exact ih false next (htells.moveTo hahead')

end Stream

/-! ## The mark says the scope -/

mutual

/-- A rule reads the same whatever the mark, and has put it back in the end. -/
theorem Rule.parse_eq_readFrom {T : Type} :
    ∀ (rule : Rule T) (s : Stream), rule.parse s = s.settle (rule.readFrom s.place)
  | .word, s => by
      rw [Rule.parse, Rule.readFrom]
      exact s.readWord_eq
  | .initial initializer, s => by
      rw [Rule.parse, Rule.readFrom]
      rfl
  | .prefixed literal inner, s => by
      rw [Rule.parse, Rule.readFrom, s.eat?_eq]
      cases s.place.eat? literal.toList with
      | none => rfl
      | some p =>
          have hinner := Rule.parse_eq_readFrom inner (s.moveTo p)
          rw [Stream.place_moveTo] at hinner
          simp only [Option.map_some, Option.bind_eq_bind, Option.bind_some, hinner]
          cases inner.readFrom p <;> rfl
  | .reduce head tail, s => by
      rw [Rule.parse, Rule.readFrom]
      have hhead := Rule.parse_eq_readFrom head (s.setMark s.pos)
      have hahead := Rule.parse_restores head (s.setMark s.pos)
      rw [Stream.place_setMark] at hhead
      rw [hhead] at hahead
      rw [hhead]
      cases hout : head.readFrom s.place with
      | none => rfl
      | some out =>
          obtain ⟨left, p⟩ := out
          rw [hout] at hahead
          -- the head may have left any mark: it is set to the start of this construct again
          have hbehind : s.pos ≤ p.pos := hahead.pos_le
          have htail := Reduction.parse_eq_readWithin tail left
            (Stream.tells_mk (s := ((s.setMark s.pos).moveTo p).setMark s.pos) hbehind)
          rw [Stream.place_setMark, Stream.place_moveTo] at htail
          simp only [Stream.settle, Option.bind_eq_bind, Option.bind_some, htail]
          rw [show (((s.setMark s.pos).moveTo p).setMark s.pos).mark = s.place.pos from rfl]
          cases tail.readWithin (Span.mk s.place.pos) left p <;> rfl

/-- A reduction reads within the scope that the mark says. -/
theorem Reduction.parse_eq_readWithin {L R : Type} {told : Nat → Span} :
    ∀ (reduction : Reduction L R) (left : L) {s : Stream}, s.Tells told →
      reduction.parse left s = s.settle (reduction.readWithin told left s.place)
  | .apply mapping, left, s, htells => by
      rw [Reduction.parse, Reduction.readWithin, htells.span]
      rw [show s.place.pos = s.pos from rfl]
      cases (mapping.forward (told s.pos) left).toOption <;> rfl
  | .put element fold, left, s, htells => by
      rw [Reduction.parse, Reduction.readWithin]
      have helement := Rule.parse_eq_readFrom element s
      have hahead := Rule.parse_restores element s
      rw [helement] at hahead
      rw [helement]
      cases hout : element.readFrom s.place with
      | none => rfl
      | some out =>
          obtain ⟨value, p⟩ := out
          rw [hout] at hahead
          simp only [Stream.settle, (htells.moveTo hahead).span]
          rfl
  | .prefixed literal inner, left, s, htells => by
      rw [Reduction.parse, Reduction.readWithin]
      have hafter := s.eat?_eq literal.toList
      cases heat : s.place.eat? literal.toList with
      | none =>
          rw [heat] at hafter
          rw [hafter]
          rfl
      | some p =>
          rw [heat, Option.map_some] at hafter
          have hahead := Stream.Ahead.of_eat? hafter
          have hinner := Reduction.parse_eq_readWithin inner left (htells.moveTo hahead)
          rw [Stream.place_moveTo] at hinner
          simp only [hafter, Option.bind_eq_bind, Option.bind_some, hinner]
          cases inner.readWithin told left p <;> rfl
  | .chain first second, left, s, htells => by
      rw [Reduction.parse, Reduction.readWithin]
      have hfirst := Reduction.parse_eq_readWithin first left htells
      have hahead := Reduction.parse_restores first left s
      rw [hfirst] at hahead
      rw [hfirst]
      cases hout : first.readWithin told left s.place with
      | none => rfl
      | some out =>
          obtain ⟨middle, p⟩ := out
          rw [hout] at hahead
          have hsecond := Reduction.parse_eq_readWithin second middle (htells.moveTo hahead)
          rw [Stream.place_moveTo] at hsecond
          simp only [Stream.settle, Option.bind_eq_bind, Option.bind_some, hsecond]
          cases second.readWithin told middle p <;> rfl
  | .choice _ first second, left, s, htells => by
      rw [Reduction.parse, Reduction.readWithin,
        Reduction.parse_eq_readWithin first left htells]
      cases first.readWithin told left s.place with
      | some out => rfl
      | none =>
          simp only [Stream.settle, Stream.rewind_self, Option.none_or,
            Reduction.parse_eq_readWithin second left htells]
          cases second.readWithin told left s.place <;> rfl
  | .optional inner, left, s, htells => by
      rw [Reduction.parse, Reduction.readWithin,
        Reduction.parse_eq_readWithin inner left htells]
      cases inner.readWithin told left s.place <;> rfl
  | .join separator item, left, s, htells => by
      rw [Reduction.parse, Reduction.readWithin]
      have hrounds := Stream.readRounds_eq separator.toList (Reduction.parse_restores item)
        (fun value _ => Reduction.parse_eq_readWithin item value) (byteCount s.rest + 1) true left
        htells
      rw [hrounds]
      rfl

end

end Biparse
