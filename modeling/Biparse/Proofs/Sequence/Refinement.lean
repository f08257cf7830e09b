import Biparse.Proofs.Sequence.Permutation
import Biparse.Sequence.Component

/-!
# Sequences stand for lists

A sequence stores its elements backwards, and every node carries a number of nodes; what can be seen
of it is computed from the back and from the number in the last node. `Sequence.Denotes` says what
is seen of a sequence that stands for a list.

Sequences come from one another: they are made by appending, collecting, splitting and by the
components, forward and backward, and several may be made from one and share its nodes. A series of
such steps (`Producer`) is run on sequences and on lists, and the sequences made stand for the lists
made (`sequences_refine_lists`). The step lemma is `perform_toList`, one case for each producer.
-/

namespace Biparse

namespace Chain

variable {α : Type} {c node : Chain α}

/-- For every node the chain that ends in it, the last node first. -/
def ends : Chain α → List (Chain α)
  | nil => []
  | snoc before last size => snoc before last size :: before.ends

theorem size_eq_length_ends (h : c.Counted) : c.size = c.ends.length := by
  induction c with
  | nil => rfl
  | snoc before last size ih => rw [Chain.size, ends, List.length_cons, ← ih h.2, h.1]

theorem size_of_mem_ends (h : c.Counted) (hnode : node ∈ c.ends) :
    node.size = node.ends.length := by
  induction c with
  | nil => cases hnode
  | snoc before last size ih =>
      rcases List.mem_cons.mp hnode with rfl | hbefore
      · exact size_eq_length_ends h
      · exact ih h.2 hbefore

end Chain

namespace Sequence

variable {α : Type} {s : Sequence α} {l : List α}

/-! ## What is seen of a sequence -/

/-- The sequence stands for a list. The distance at which an element is looked up is what its index
leaves of the number of elements, so no subtraction in it goes below zero. -/
structure Denotes (s : Sequence α) (l : List α) : Prop where
  counted : ∀ node ∈ s.chain.ends, node.size = node.ends.length
  toList : s.toList = l
  backwards : s.backwards = l.reverse
  reversed : s.backwards.reverse = l
  size : s.size = l.length
  isEmpty : s.isEmpty = true ↔ l = []
  last? : s.last? = l.getLast?
  splitLast? : s.splitLast?.map (fun split => (split.1.toList, split.2))
    = l.getLast?.map fun x => (l.dropLast, x)
  get? : ∀ index, s.get? index = l[index]?
  distance : ∀ index, index < s.size → ∃ distance, index + 1 + distance = s.size
    ∧ s.get? index = s.chain.fromEnd? distance

theorem splitLast?_push (s : Sequence α) (x : α) : (s.push x).splitLast? = some (s, x) :=
  splitLast?_eq_some_iff.mpr rfl

theorem map_splitLast? (s : Sequence α) :
    s.splitLast?.map (fun split => (split.1.toList, split.2))
      = s.toList.getLast?.map fun x => (s.toList.dropLast, x) := by
  induction s using push_induction with
  | empty => rfl
  | push s x _ => simp [splitLast?_push]

theorem denotes_toList (s : Sequence α) : s.Denotes s.toList where
  counted _ := Chain.size_of_mem_ends s.counted
  toList := rfl
  backwards := backwards_eq_reverse s
  reversed := by rw [backwards_eq_reverse, List.reverse_reverse]
  size := size_eq_length s
  isEmpty := isEmpty_iff
  last? := last?_eq_getLast? s
  splitLast? := map_splitLast? s
  get? := get?_eq_getElem? s
  distance index hindex :=
    ⟨s.size - 1 - index, by omega, by rw [Sequence.get?, if_neg (Nat.not_le.mpr hindex)]⟩

end Sequence

/-! ## Where sequences come from -/

/-- A way to make one more sequence. The sequences made before are named by their places; the
elements put in are any elements, those taken out of a sequence among them. -/
inductive Producer (α : Type) where
  | empty
  | collect (items : List α)
  | copy (s : Nat)
  | push (s : Nat) (x : α)
  | splitLast (s : Nat)
  | appendForward (floor s : Nat) (x : α)
  | appendBackward (floor s : Nat)
  | pairForward (x y : α)
  | singletonForward (x : α)
  | permuteForward (p : Permutation) (s : Nat)
  | permuteBackward (p : Permutation) (s : Nat)

namespace Producer

variable {α S : Type}

/-- What a producer makes of the sequences at hand, unless it refuses. -/
def perform (context : Span) (made : List (Sequence α)) : Producer α → Option (Sequence α)
  | empty => some .empty
  | collect items => some (.ofList items)
  | copy s => made[s]?
  | push s x => made[s]?.map fun s => s.push x
  | splitLast s => made[s]?.bind fun s => s.splitLast?.map Prod.fst
  | appendForward floor s x =>
    made[s]?.map fun s => (Sequence.appendFold α floor).forward context s x
  | appendBackward floor s => made[s]?.bind (Sequence.appendFold α floor).leftInverse
  | pairForward x y => some ((Sequence.pairFold α).forward context x y)
  | singletonForward x => ((Sequence.singleton α).forward context x).toOption
  | permuteForward p s => made[s]?.bind fun s => ((p.mapping α).forward context s).toOption
  | permuteBackward p s => made[s]?.bind (p.mapping α).backward

/-- What a producer makes of the lists at hand, unless it refuses. -/
def onLists (made : List (List α)) : Producer α → Option (List α)
  | empty => some []
  | collect items => some items
  | copy s => made[s]?
  | push s x => made[s]?.map fun l => l ++ [x]
  | splitLast s => made[s]?.bind fun l => if l.isEmpty then none else some l.dropLast
  | appendForward _ s x => made[s]?.map fun l => l ++ [x]
  | appendBackward floor s =>
    made[s]?.bind fun l => if l.length ≤ floor then none else some l.dropLast
  | pairForward x y => some [x, y]
  | singletonForward x => some [x]
  | permuteForward p s =>
    made[s]?.bind fun l => if l.length = p.size then p.order.mapM fun i => l[i]? else none
  | permuteBackward p s =>
    made[s]?.bind fun l =>
      if l.length = p.size then (List.range p.size).mapM fun i => l[p.order.idxOf i]? else none

/-- What producers make one after another. Nothing is made where one refuses. -/
def run (perform : List S → Producer α → Option S) (made : List S) (producers : List (Producer α)) :
    List S :=
  producers.foldl (fun made producer => made ++ (perform made producer).toList) made

/-- The sequences that producers make. -/
def sequences (context : Span) : List (Producer α) → List (Sequence α) := run (perform context) []

/-- The lists that producers make. -/
def lists : List (Producer α) → List (List α) := run onLists []

/-! ## Every step keeps sequences and lists together -/

theorem map_toList_splitLast? (s : Sequence α) :
    (s.splitLast?.map Prod.fst).map Sequence.toList
      = if s.toList.isEmpty then none else some s.toList.dropLast := by
  have hsplit := congrArg (Option.map Prod.fst) (Sequence.map_splitLast? s)
  rw [Option.map_map, Option.map_map] at hsplit
  rw [Option.map_map]
  refine hsplit.trans ?_
  cases s.toList with
  | nil => rfl
  | cons x rest => simp [List.getLast?_cons]

theorem map_toList_appendFold_leftInverse (floor : Nat) (s : Sequence α) :
    ((Sequence.appendFold α floor).leftInverse s).map Sequence.toList
      = if s.toList.length ≤ floor then none else some s.toList.dropLast := by
  simp only [Sequence.appendFold, Sequence.splitAbove?, Sequence.size_eq_length]
  split
  · rfl
  · rename_i hlength
    refine (map_toList_splitLast? s).trans (if_neg fun hempty => hlength ?_)
    rw [List.isEmpty_iff.mp hempty]
    exact Nat.zero_le floor

/-- A step from one of the sequences at hand is the step from its list. -/
theorem map_toList_bind {f : Sequence α → Option (Sequence α)} {g : List α → Option (List α)}
    (hstep : ∀ s, (f s).map Sequence.toList = g s.toList) (made : List (Sequence α)) (i : Nat) :
    (made[i]?.bind f).map Sequence.toList = (made.map Sequence.toList)[i]?.bind g := by
  rw [List.getElem?_map]
  cases made[i]? with
  | none => rfl
  | some s => exact hstep s

theorem perform_toList (context : Span) (made : List (Sequence α)) (producer : Producer α) :
    (producer.perform context made).map Sequence.toList
      = producer.onLists (made.map Sequence.toList) := by
  cases producer with
  | empty => rfl
  | collect items => exact congrArg some (Sequence.toList_ofList items)
  | copy s => exact (List.getElem?_map ..).symm
  | push s x => cases h : made[s]? <;> simp [perform, onLists, h]
  | splitLast s => exact map_toList_bind map_toList_splitLast? made s
  | appendForward floor s x =>
      cases h : made[s]? <;> simp [perform, onLists, h, Sequence.appendFold]
  | appendBackward floor s =>
      exact map_toList_bind (map_toList_appendFold_leftInverse floor) made s
  | pairForward x y => simp [perform, onLists, Sequence.pairFold]
  | singletonForward x => simp [perform, onLists, Sequence.singleton, Except.toOption]
  | permuteForward p s => exact map_toList_bind (p.map_toList_forward context) made s
  | permuteBackward p s => exact map_toList_bind p.map_toList_backward made s

theorem sequences_toList (context : Span) (producers : List (Producer α)) :
    (sequences context producers).map Sequence.toList = lists producers := by
  refine (List.foldl_hom (List.map Sequence.toList) fun made producer => ?_).symm
  rw [List.map_append, ← Option.toList_map, perform_toList]

/-! ## What has been made stays -/

theorem prefix_run (perform : List S → Producer α → Option S) (made : List S)
    (producers : List (Producer α)) : made <+: run perform made producers := by
  induction producers generalizing made with
  | nil => exact List.prefix_rfl
  | cons producer rest ih => exact (List.prefix_append made _).trans (ih _)

theorem sequences_append (context : Span) (producers more : List (Producer α)) :
    sequences context (producers ++ more)
      = run (perform context) (sequences context producers) more :=
  List.foldl_append

/-- Two sequences made by appending to one: each is made whatever the other is. -/
theorem sequences_push_push {context : Span} {producers : List (Producer α)} {i : Nat}
    {s : Sequence α} (hs : (sequences context producers)[i]? = some s) (x y : α) :
    sequences context (producers ++ [push i x, push i y])
      = sequences context producers ++ [s.push x, s.push y] := by
  have hi : i < (sequences context producers).length := (List.getElem?_eq_some_iff.mp hs).1
  have hs' : (sequences context producers ++ [s.push x])[i]? = some s := by
    rw [List.getElem?_append_left hi, hs]
  simp [sequences_append, run, perform, hs, hs']

end Producer

/-- The sequences that any series of producers makes stand for the lists it makes, whatever nodes
they share. What has been made stays as it is: two appends to one sequence do not see each other,
and taking the last element of either gives back the sequence itself. -/
theorem sequences_refine_lists {α : Type} (context : Span) (producers : List (Producer α)) :
    List.Forall₂ Sequence.Denotes (Producer.sequences context producers) (Producer.lists producers)
      ∧ (∀ more, Producer.sequences context producers
          <+: Producer.sequences context (producers ++ more))
      ∧ ∀ i s l x y, (Producer.sequences context producers)[i]? = some s →
          (Producer.lists producers)[i]? = some l →
          Producer.sequences context (producers ++ [.push i x, .push i y])
              = Producer.sequences context producers ++ [s.push x, s.push y]
            ∧ s.Denotes l ∧ (s.push x).Denotes (l ++ [x]) ∧ (s.push y).Denotes (l ++ [y])
            ∧ (s.push x).splitLast? = some (s, x) ∧ (s.push y).splitLast? = some (s, y) := by
  have hlists := Producer.sequences_toList context producers
  refine ⟨?_, fun more => ?_, fun i s l x y hs hl => ?_⟩
  · rw [← hlists, List.forall₂_map_right_iff, List.forall₂_same]
    exact fun s _ => s.denotes_toList
  · rw [Producer.sequences_append]
    exact Producer.prefix_run _ _ more
  · obtain rfl : s.toList = l := by
      rw [← hlists, List.getElem?_map, hs] at hl
      exact Option.some.inj hl
    refine ⟨Producer.sequences_push_push hs x y, s.denotes_toList, ?_, ?_,
      s.splitLast?_push x, s.splitLast?_push y⟩
    · rw [← Sequence.toList_push]
      exact (s.push x).denotes_toList
    · rw [← Sequence.toList_push]
      exact (s.push y).denotes_toList

end Biparse
