import Biparse.Sequence.Basic

/-!
# Sequences with node identity

Two sequences share their representation when they end in the same node, or are both empty. Nodes
are told apart by tags: every append that happens gets a tag of its own, and the sequences made
from it keep it. A traced sequence is a sequence of tagged elements.
-/

namespace Biparse

/-- An element in a node of its own. -/
structure Tagged (α : Type) where
  tag : Nat
  item : α

instance {α : Type} [BEq α] : BEq (Tagged α) := ⟨fun a b => a.item == b.item⟩

/-- A sequence whose nodes can be told apart. -/
abbrev TracedSequence (α : Type) := Sequence (Tagged α)

namespace TracedSequence

variable {α : Type}

/-- The elements without their tags. -/
def items (s : TracedSequence α) : List α := s.toList.map Tagged.item

/-- The tag of the last node, if there is one. -/
def lastTag? (s : TracedSequence α) : Option Nat := s.last?.map Tagged.tag

/-- Whether two sequences end in the same node or are both empty. -/
def sharesNode (s t : TracedSequence α) : Bool := s.lastTag? == t.lastTag?

/-- A row of elements with the tags from `next` on. -/
def tagFrom (next : Nat) : List α → List (Tagged α)
  | [] => []
  | x :: rest => ⟨next, x⟩ :: tagFrom (next + 1) rest

/-- Elements appended one by one to `s`, in nodes with the tags from `next` on. -/
def extend (s : TracedSequence α) (next : Nat) (elements : List α) : TracedSequence α :=
  (tagFrom next elements).foldl Sequence.push s

end TracedSequence

end Biparse
