import Biparse.Grammar.Print
import Biparse.Integer.Component
import Biparse.Sequence.Component
import Biparse.Sequence.Permutation

/-!
# Grammars of words, lists and counters

Small grammars over words: separated lists, lists in another order, pairs, counted marks, and single
words with something made of them.
-/

namespace Biparse.Grammar

/-! ## Lists -/

/-- A word. -/
def word : Grammar String := ⟨.word, fun _ => 1⟩

/-- Words with a separator between them, possibly none. -/
def listRule (separator : String) (floor : Nat) : Rule (Sequence String) :=
  .reduce (.initial (Sequence.initializer String))
    (.join separator (.put .word (Sequence.appendFold String floor)))

/-- A possibly empty list of words. -/
def list (separator : String) (floor : Nat) : Grammar (Sequence String) :=
  ⟨listRule separator floor, fun s => s.size + 1⟩

/-- A list of words that starts from its first word; each further one brings its separator. -/
def nonemptyList (separator : String) (floor : Nat) : Grammar (Sequence String) where
  rule :=
    .reduce (.reduce .word (.apply (Sequence.singleton String)))
      (.join "" (.put (.prefixed separator .word) (Sequence.appendFold String floor)))
  bound s := s.size + 1

/-- A list of words whose value holds them in another order. -/
def permutedList (p : Permutation) (separator : String) (floor : Nat) :
    Grammar (Sequence String) :=
  ⟨.reduce (listRule separator floor) (.apply (p.mapping String)), fun s => s.size + 1⟩

/-! ## Two parts -/

/-- Two words with a separator between them, combined by a fold. -/
def twoWords {R : Type} (separator : String) (fold : Fold String String R) : Grammar R :=
  ⟨.reduce .word (.put (.prefixed separator .word) fold), fun _ => 1⟩

/-- Two words as a sequence of two. -/
def binary (separator : String) : Grammar (Sequence String) :=
  twoWords separator (Sequence.pairFold String)

/-- Two words as a pair. -/
def pair (separator : String) : Grammar (String × String) := twoWords separator (.pair _ _)

/-- Two words as a pair with the second one first. -/
def swappedPair (separator : String) : Grammar (String × String) :=
  twoWords separator (.swappedPair _ _)

/-! ## Counters -/

/-- Marks with a separator between them, each of which adds one to a start. -/
def counter (start floor : Int64) (mark separator : String) : Grammar Int64 where
  rule :=
    .reduce (.initial (.ofValue start))
      (.join separator (.prefixed mark (.apply (Integer.increment floor))))
  bound n := (n.toInt - floor.toInt).toNat + 1

/-! ## Single words -/

/-- A word after a literal, with its location. -/
def located (literal : String) : Grammar (Located String) :=
  ⟨.prefixed literal (.reduce .word (.apply (.locate String))), fun _ => 1⟩

/-- A word as a present value. -/
def present : Grammar (Option String) :=
  ⟨.reduce .word (.apply (.present String)), fun _ => 1⟩

/-- A literal that stands for an absent value. -/
def absent (literal : String) : Grammar (Option String) :=
  ⟨.prefixed literal (.initial (.absent String)), fun _ => 1⟩

/-- A word read as an integer literal, which no word is. -/
def number : Grammar Int64 := ⟨.reduce .word (.apply Integer.literal), fun _ => 1⟩

end Biparse.Grammar
