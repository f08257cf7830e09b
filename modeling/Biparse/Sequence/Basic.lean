import Biparse.Text.Outline
import Biparse.Json.Basic

/-!
# Persistent sequences

A sequence grows at its right end and never changes: appending makes a new sequence around the old
one, which its holders keep seeing as it was. It is a chain of nodes that each hold the elements
before theirs, their element, and the number of elements up to it. `Sequence` carries the proof that
every such number is right, so `size` is read off the last node. The view of a sequence is its list
of elements, `toList`; every operation is described by what it does to that list.
-/

namespace Biparse

/-- A chain of nodes, each with the number of nodes up to and including itself. -/
inductive Chain (α : Type) where
  | nil
  | snoc (before : Chain α) (last : α) (size : Nat)

namespace Chain

variable {α : Type}

/-- The number the last node carries. -/
def size : Chain α → Nat
  | nil => 0
  | snoc _ _ size => size

/-- Every node carries one more than the node before it. -/
def Counted : Chain α → Prop
  | nil => True
  | snoc before _ size => size = before.size + 1 ∧ before.Counted

/-- The elements of a chain, front to back, before those of `after`. -/
def listBefore : Chain α → List α → List α
  | nil, after => after
  | snoc before last _, after => before.listBefore (last :: after)

/-- The elements from back to front. -/
def backwards : Chain α → List α
  | nil => []
  | snoc before last _ => last :: before.backwards

/-- The element that stands `distance` places before the last one. -/
def fromEnd? : Chain α → Nat → Option α
  | nil, _ => none
  | snoc _ last _, 0 => some last
  | snoc before _ _, distance + 1 => before.fromEnd? distance

/-- Equality of elements, compared from the back until one chain ends. -/
def same [BEq α] : Chain α → Chain α → Bool
  | nil, nil => true
  | snoc before last _, snoc before' last' _ => last == last' && before.same before'
  | _, _ => false

theorem listBefore_eq_append (c : Chain α) (after : List α) :
    c.listBefore after = c.listBefore [] ++ after := by
  induction c generalizing after with
  | nil => rfl
  | snoc before last size ih => rw [listBefore, listBefore, ih (last :: after), ih [last]]; simp

theorem size_eq_length {c : Chain α} (h : c.Counted) : c.size = (c.listBefore []).length := by
  induction c with
  | nil => rfl
  | snoc before last size ih =>
    rw [Counted] at h
    rw [Chain.size, listBefore, listBefore_eq_append, h.1, ih h.2]
    simp

theorem backwards_eq_reverse (c : Chain α) : c.backwards = (c.listBefore []).reverse := by
  induction c with
  | nil => rfl
  | snoc before last size ih => rw [backwards, listBefore, listBefore_eq_append, ih]; simp

theorem fromEnd?_eq_getElem? (c : Chain α) (distance : Nat) :
    c.fromEnd? distance = c.backwards[distance]? := by
  induction c generalizing distance with
  | nil => simp [fromEnd?, backwards]
  | snoc before last size ih => cases distance <;> simp [fromEnd?, backwards, ih]

theorem ext_of_counted {c d : Chain α} (hc : c.Counted) (hd : d.Counted)
    (h : c.listBefore [] = d.listBefore []) : c = d := by
  induction c generalizing d with
  | nil =>
    cases d with
    | nil => rfl
    | snoc before last size =>
      rw [listBefore, listBefore, listBefore_eq_append] at h
      simp at h
  | snoc before last size ih =>
    cases d with
    | nil =>
      rw [listBefore, listBefore, listBefore_eq_append] at h
      simp at h
    | snoc before' last' size' =>
      rw [listBefore, listBefore, listBefore_eq_append before,
        listBefore_eq_append before'] at h
      obtain ⟨hbefore, hlast⟩ := List.append_inj' h rfl
      obtain rfl := ih hc.2 hd.2 hbefore
      obtain ⟨rfl⟩ := hlast
      rw [hc.1, hd.1]

end Chain

/-- A persistent sequence. -/
structure Sequence (α : Type) where
  chain : Chain α
  counted : chain.Counted

namespace Sequence

variable {α : Type}

/-- The sequence without elements. -/
def empty : Sequence α := ⟨.nil, trivial⟩

instance : Inhabited (Sequence α) := ⟨empty⟩

/-- Number of elements. -/
def size (s : Sequence α) : Nat := s.chain.size

/-- Whether there are no elements. -/
def isEmpty (s : Sequence α) : Bool :=
  match s.chain with
  | .nil => true
  | .snoc .. => false

/-- The sequence with one more element at the end. -/
def push (s : Sequence α) (x : α) : Sequence α := ⟨.snoc s.chain x (s.size + 1), rfl, s.counted⟩

/-- The last element. -/
def last? (s : Sequence α) : Option α :=
  match s.chain with
  | .nil => none
  | .snoc _ last _ => some last

/-- The sequence without its last element, and that element. -/
def splitLast? (s : Sequence α) : Option (Sequence α × α) :=
  match s with
  | ⟨.nil, _⟩ => none
  | ⟨.snoc before last _, counted⟩ => some (⟨before, counted.2⟩, last)

/-- The elements from front to back. -/
def toList (s : Sequence α) : List α := s.chain.listBefore []

/-- The elements from back to front. -/
def backwards (s : Sequence α) : List α := s.chain.backwards

/-- The element at an index, counted from the front. -/
def get? (s : Sequence α) (index : Nat) : Option α :=
  if s.size ≤ index then none else s.chain.fromEnd? (s.size - 1 - index)

/-- The elements of a list appended one by one. -/
def ofList (items : List α) : Sequence α := items.foldl push empty

/-- Elementwise equality, whatever nodes the two share. -/
def same [BEq α] (s t : Sequence α) : Bool := s.size == t.size && s.chain.same t.chain

instance [BEq α] : BEq (Sequence α) := ⟨same⟩

/-- How a sequence is shown, given how its elements are. -/
def outline (item : α → Outline) (s : Sequence α) : Outline := .list (s.toList.map item)

/-- A sequence as a document. -/
def toJson (write : α → Json) (s : Sequence α) : Json := .array (s.toList.map write)

/-! ## What the operations do to the list of elements -/

@[simp] theorem toList_empty : (empty : Sequence α).toList = [] := rfl

@[simp] theorem toList_push (s : Sequence α) (x : α) : (s.push x).toList = s.toList ++ [x] :=
  Chain.listBefore_eq_append s.chain [x]

theorem size_eq_length (s : Sequence α) : s.size = s.toList.length :=
  Chain.size_eq_length s.counted

theorem toList_foldl_push (items : List α) (s : Sequence α) :
    (items.foldl push s).toList = s.toList ++ items := by
  induction items generalizing s with
  | nil => simp
  | cons x rest ih => simp [ih]

@[simp] theorem toList_ofList (items : List α) : (ofList items).toList = items := by
  simp [ofList, toList_foldl_push]

theorem backwards_eq_reverse (s : Sequence α) : s.backwards = s.toList.reverse :=
  Chain.backwards_eq_reverse s.chain

theorem isEmpty_iff {s : Sequence α} : s.isEmpty = true ↔ s.toList = [] := by
  obtain ⟨_ | ⟨before, last, size⟩, h⟩ := s
  · simp [isEmpty, toList, Chain.listBefore]
  · simp only [isEmpty, toList, Chain.listBefore]
    rw [Chain.listBefore_eq_append]
    simp

theorem splitLast?_eq_some_iff {s p : Sequence α} {x : α} :
    s.splitLast? = some (p, x) ↔ s = p.push x := by
  obtain ⟨_ | ⟨before, last, n⟩, h⟩ := s
  · constructor
    · intro hs
      cases hs
    · intro hs
      exact absurd (congrArg chain hs) (by simp [push])
  · constructor
    · intro hs
      cases hs
      unfold push
      congr
      exact h.1
    · intro hs
      obtain ⟨before', hp⟩ := p
      have hc := congrArg chain hs
      simp only [push, Chain.snoc.injEq] at hc
      obtain ⟨rfl, rfl, -⟩ := hc
      rfl

theorem toList_inj {s t : Sequence α} : s.toList = t.toList ↔ s = t := by
  constructor
  · intro h
    obtain ⟨c, hc⟩ := s
    obtain ⟨d, hd⟩ := t
    obtain rfl := Chain.ext_of_counted hc hd h
    rfl
  · rintro rfl
    rfl

@[simp] theorem ofList_toList (s : Sequence α) : ofList s.toList = s :=
  toList_inj.1 (toList_ofList _)

/-- Every sequence comes from the empty one by appending. -/
@[elab_as_elim]
theorem push_induction {motive : Sequence α → Prop} (empty : motive empty)
    (push : ∀ s x, motive s → motive (s.push x)) (s : Sequence α) : motive s := by
  have hfoldl : ∀ (items : List α) (start : Sequence α), motive start →
      motive (items.foldl Sequence.push start) := by
    intro items
    induction items with
    | nil => exact fun _ h => h
    | cons x rest ih => exact fun start h => ih (start.push x) (push start x h)
  rw [← ofList_toList s]
  exact hfoldl s.toList _ empty

theorem get?_eq_getElem? (s : Sequence α) (index : Nat) : s.get? index = s.toList[index]? := by
  unfold get?
  rw [size_eq_length]
  split
  · rename_i h
    exact (List.getElem?_eq_none h).symm
  · rename_i h
    rw [Chain.fromEnd?_eq_getElem?, Chain.backwards_eq_reverse]
    change s.toList.reverse[s.toList.length - 1 - index]? = _
    rw [List.getElem?_reverse (by omega)]
    congr 1
    omega

theorem last?_eq_getLast? (s : Sequence α) : s.last? = s.toList.getLast? := by
  obtain ⟨_ | ⟨before, last, n⟩, h⟩ := s
  · rfl
  · simp only [last?, toList, Chain.listBefore]
    rw [Chain.listBefore_eq_append]
    simp

end Sequence

/-! ## Taking from both ends

Elements may be taken from the front and from the back, each once. After the last one both ends stay
exhausted.
-/

/-- The two ends elements are taken from. -/
inductive Side where
  | front
  | back
deriving Repr, DecidableEq

/-- What is left after taking from a side, with the element taken if there was one. -/
def Side.take {α : Type} (side : Side) (items : List α) : Option α × List α :=
  match side with
  | .front => (items.head?, items.tail)
  | .back => (items.getLast?, items.dropLast)

/-- What a series of takes delivers, each with the number of elements left after it. -/
def takeEnds {α : Type} (items : List α) : List Side → List (Option α × Nat)
  | [] => []
  | side :: rest =>
    let (taken, left) := side.take items
    (taken, left.length) :: takeEnds left rest

end Biparse
