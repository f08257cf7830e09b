import Biparse.Grammar.Basic
import Biparse.Grammar.Stream

/-!
# Reading by a grammar

Reading takes a stream and answers a value, or none, and the stream after it. A node that fails has
put the stream back where it found it, so that another alternative can be tried from there.

A join ends when a separator or an item is missing, or when a round has consumed nothing. Every
other round consumes at least one byte, so one round more than there are bytes left is enough;
`Reduction.parse` computes that bound, and no caller meets it.
-/

namespace Biparse

/-- The letters words are made of. -/
def isWordLetter (c : Char) : Bool := 'a' ≤ c && c ≤ 'z'

/-- Reads the longest word that comes next. -/
def readWord (s : Stream) : Option String × Stream :=
  match s.rest.takeWhile isWordLetter with
  | [] => (none, s)
  | letters => (some (String.ofList letters), s.advance letters.length)

/-- The separator between two items; before the first item there is none. -/
def readSeparator (separator : List Char) (first : Bool) (s : Stream) : Option Stream :=
  if first then some s else s.eat? separator

/-- The rounds of a join, at most `bound` of them. A round that fails gives its separator back; one
that has consumed nothing keeps its result and is the last. -/
def readRounds {T : Type} (item : T → Stream → Option T × Stream) (separator : List Char) :
    Nat → Bool → T → Stream → T × Stream
  | 0, _, value, s => (value, s)
  | bound + 1, first, value, s =>
    match readSeparator separator first s with
    | none => (value, s)
    | some after =>
      match item value after with
      | (none, s') => (value, s'.rewind s)
      | (some next, s') =>
        if s'.pos = s.pos then (next, s') else readRounds item separator bound false next s'

mutual

/-- Reads a value. -/
def Rule.parse {T : Type} : Rule T → Stream → Option T × Stream
  | .word, s => readWord s
  | .initial initializer, s => (some (initializer.supply (.empty s.pos)), s)
  | .prefixed literal inner, s =>
    match s.eat? literal.toList with
    | none => (none, s)
    | some after =>
      match inner.parse after with
      | (none, s') => (none, s'.rewind s)
      | (some value, s') => (some value, s')
  | .reduce head tail, s =>
    match head.parse (s.setMark s.pos) with
    | (none, s') => (none, (s'.setMark s.mark).rewind s)
    | (some left, s') =>
      match tail.parse left (s'.setMark s.pos) with
      | (none, s'') => (none, (s''.setMark s.mark).rewind s)
      | (some value, s'') => (some value, s''.setMark s.mark)

/-- Reads on from the value to the left. -/
def Reduction.parse {L R : Type} : Reduction L R → L → Stream → Option R × Stream
  | .apply mapping, left, s => ((mapping.forward s.span left).toOption, s)
  | .put element fold, left, s =>
    match element.parse s with
    | (none, s') => (none, s')
    | (some value, s') => (some (fold.forward s'.span left value), s')
  | .prefixed literal inner, left, s =>
    match s.eat? literal.toList with
    | none => (none, s)
    | some after =>
      match inner.parse left after with
      | (none, s') => (none, s'.rewind s)
      | (some value, s') => (some value, s')
  | .chain first second, left, s =>
    match first.parse left s with
    | (none, s') => (none, s'.rewind s)
    | (some middle, s') =>
      match second.parse middle s' with
      | (none, s'') => (none, s''.rewind s)
      | (some value, s'') => (some value, s'')
  | .choice _ first second, left, s =>
    match first.parse left s with
    | (some value, s') => (some value, s')
    | (none, s') =>
      match second.parse left (s'.rewind s) with
      | (none, s'') => (none, s''.rewind s)
      | (some value, s'') => (some value, s'')
  | .optional inner, left, s =>
    match inner.parse left s with
    | (some value, s') => (some value, s')
    | (none, s') => (some left, s'.rewind s)
  | .join separator item, left, s =>
    let (value, s') := readRounds (fun value s => item.parse value s) separator.toList
      (byteCount s.rest + 1) true left s
    (some value, s')

end

/-- Reads a whole text. -/
def Rule.parseAll? {T : Type} (rule : Rule T) (text : String) : Option T :=
  match rule.parse (.ofText text) with
  | (some value, s) => if s.rest.isEmpty then some value else none
  | (none, _) => none

end Biparse
