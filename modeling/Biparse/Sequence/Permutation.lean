import Biparse.Component
import Biparse.Sequence.Basic

/-!
# Reordering sequences

A permutation is a list of indices that holds each index below its length exactly once. Forward it
lists a sequence of that length in the order of the indices; backward it puts each element back at
the index it came from.
-/

namespace Biparse

/-- An order of the indices below its length. -/
structure Permutation where
  order : List Nat
  inRange : ∀ i ∈ order, i < order.length
  nodup : order.Nodup

namespace Permutation

/-- Goes through an order once and marks each index in a table of those seen, up to an index that
the table does not have or has marked before. -/
def allFresh : Array Bool → List Nat → Bool
  | _, [] => true
  | seen, i :: rest =>
    match seen[i]? with
    | some false => allFresh (seen.setIfInBounds i true) rest
    | _ => false

theorem getElem?_mark_eq_false_iff {seen : Array Bool} {i j : Nat} :
    (seen.setIfInBounds i true)[j]? = some false ↔ j ≠ i ∧ seen[j]? = some false := by
  rw [Array.getElem?_setIfInBounds]
  by_cases hij : i = j
  · simp [hij]
  · simp [hij, Ne.symm hij]

/-- Marks are only added, so what is not marked when its turn comes was never marked before. -/
theorem allFresh_iff {seen : Array Bool} {order : List Nat} :
    allFresh seen order = true ↔ (∀ i ∈ order, seen[i]? = some false) ∧ order.Nodup := by
  induction order generalizing seen with
  | nil => simp [allFresh]
  | cons i rest ih =>
    have hrest : (∀ j ∈ rest, (seen.setIfInBounds i true)[j]? = some false) ↔
        i ∉ rest ∧ ∀ j ∈ rest, seen[j]? = some false := by
      simp only [getElem?_mark_eq_false_iff]
      constructor
      · exact fun h => ⟨fun hi => (h i hi).1 rfl, fun j hj => (h j hj).2⟩
      · exact fun h j hj => ⟨fun heq => h.1 (heq ▸ hj), h.2 j hj⟩
    rw [allFresh, List.forall_mem_cons, List.nodup_cons]
    rcases seen[i]? with _ | _ | _
    · simp
    · simp only [ih, hrest, true_and, and_assoc, and_left_comm]
    · simp

/-- Against a table without marks, the indices fit and are distinct. -/
theorem allFresh_replicate_iff {count : Nat} {order : List Nat} :
    allFresh (.replicate count false) order = true ↔ (∀ i ∈ order, i < count) ∧ order.Nodup := by
  simp [allFresh_iff, Array.getElem?_replicate]

/-- The permutation with an order, unless an index is too large or comes twice. -/
def ofOrder (order : List Nat) : Except ConfigError Permutation :=
  if h : allFresh (.replicate order.length false) order = true then
    .ok ⟨order, (allFresh_replicate_iff.mp h).1, (allFresh_replicate_iff.mp h).2⟩
  else .error (.invalidPermutation order)

/-- Number of elements of the sequences a permutation reorders. -/
def size (p : Permutation) : Nat := p.order.length

variable {α : Type}

/-- The elements at the indices of the order, one after another. -/
def arrange (p : Permutation) (items : List α) (h : items.length = p.size) : List α :=
  p.order.attach.map fun ⟨i, hi⟩ => items.get ⟨i, h ▸ p.inRange i hi⟩

/-- Slots filled by putting each element at its index, later ones over earlier ones. -/
def scatter (order : List Nat) (items : List α) : List (Option α) :=
  (items.zip order).foldl (fun slots (item, i) => slots.set i (some item))
    (List.replicate order.length none)

/-- Reorders sequences of the permutation's size; backward restores the order they had. -/
def mapping (α : Type) (p : Permutation) : Mapping (Sequence α) (Sequence α) where
  forward _ left :=
    let items := left.toList
    if h : items.length = p.size then .ok (.ofList (p.arrange items h))
    else .error (.arity p.size left.size)
  backward result :=
    if result.size = p.size then ((scatter p.order result.toList).mapM id).map .ofList else none

end Permutation

end Biparse
