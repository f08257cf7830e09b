import Biparse.Component

/-!
# Grammars

A grammar is a tree of two kinds of node. A `Rule T` reads a `T` and prints one. A `Reduction L R`
turns the `L` read to its left into an `R`, and when printing gives back that `L` with the text it
stands for itself. Literals, initializers, folds and mappings are the data of the nodes.
-/

namespace Biparse

mutual

/-- Nodes that read a value. -/
inductive Rule : Type → Type 1 where
  /-- One or more lowercase ASCII letters. -/
  | word : Rule String
  /-- Nothing; the value comes from an initializer. -/
  | initial {T : Type} (initializer : Initializer T) : Rule T
  /-- A literal, then `inner`. -/
  | prefixed {T : Type} (literal : String) (inner : Rule T) : Rule T
  /-- What `head` reads, reduced by `tail`. -/
  | reduce {L R : Type} (head : Rule L) (tail : Reduction L R) : Rule R

/-- Nodes that turn the value to their left into another. -/
inductive Reduction : Type → Type → Type 1 where
  /-- A mapping; reads nothing. -/
  | apply {L R : Type} (mapping : Mapping L R) : Reduction L R
  /-- One element, folded onto the value. -/
  | put {L E R : Type} (element : Rule E) (fold : Fold L E R) : Reduction L R
  /-- A literal, then `inner`. -/
  | prefixed {L R : Type} (literal : String) (inner : Reduction L R) : Reduction L R
  /-- `first`, then `second`. -/
  | chain {L M R : Type} (first : Reduction L M) (second : Reduction M R) : Reduction L R
  /-- `first` or else `second`; printing tries `second` first if `swapped`. -/
  | choice {L R : Type} (swapped : Bool) (first second : Reduction L R) : Reduction L R
  /-- `inner` if it applies, and otherwise the value as it is. -/
  | optional {T : Type} (inner : Reduction T T) : Reduction T T
  /-- Any number of items with a separator between them. -/
  | join {T : Type} (separator : String) (item : Reduction T T) : Reduction T T

end

end Biparse
