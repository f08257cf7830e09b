import Biparse.KeyedMap.Basic
import Biparse.Proofs.Elem.Equality
import Biparse.Proofs.Sequence.Identity
import Biparse.PropertyMap.Basic
import Mathlib.Data.List.Forall2

/-!
# Collections are compared entry by entry

Each kind of collection has a row of entries, and its equality is that of the rows
(`ComparesRows`): the rows are of one length and equal place by place. Nothing else counts, so what
is known of the equality of entries carries over to collections. It need not be reflexive: a
collection equals itself only if all its entries do, and that it shares all its nodes with the other
side does not help (`collections_compare_entries`).

A sequence is compared from the back and after its size, a list inside an element from the front.
Both come to the same (`Elem.list_beq_list`).
-/

namespace Biparse

/-! ## Rows -/

section Rows

variable {α : Type} [BEq α] {x y : α} {l l' l'' : List α}

/-- Rows of one length with equal entries in each place. -/
def SameRows (l l' : List α) : Prop := List.Forall₂ (fun x y => (x == y) = true) l l'

theorem sameRows_cons : SameRows (x :: l) (y :: l') ↔ (x == y) = true ∧ SameRows l l' :=
  List.forall₂_cons

theorem sameRows_self_iff : SameRows l l ↔ ∀ x ∈ l, (x == x) = true := List.forall₂_same

theorem sameRows_reverse : SameRows l.reverse l'.reverse ↔ SameRows l l' :=
  List.forall₂_reverse_iff

theorem sameRows_map {β : Type} [BEq β] {f : β → α} {l l' : List β} :
    SameRows (l.map f) (l'.map f) ↔ List.Forall₂ (fun x y => (f x == f y) = true) l l' := by
  rw [SameRows, List.forall₂_map_left_iff, List.forall₂_map_right_iff]

theorem SameRows.length_eq (h : SameRows l l') : l.length = l'.length := List.Forall₂.length_eq h

theorem SameRows.symm [PartialEquivBEq α] (h : SameRows l l') : SameRows l' l :=
  List.Forall₂.flip (h.imp fun _ _ => BEq.symm)

theorem SameRows.trans [PartialEquivBEq α] (h : SameRows l l') (h' : SameRows l' l'') :
    SameRows l l'' := by
  induction h generalizing l'' with
  | nil => exact h'
  | cons hxy _ ih =>
      obtain ⟨_, _, hyz, hrest, rfl⟩ := List.forall₂_cons_left_iff.mp h'
      exact .cons (BEq.trans hxy hyz) (ih hrest)

theorem beq_iff_sameRows : (l == l') = true ↔ SameRows l l' := by
  induction l generalizing l' with
  | nil => cases l' <;> simp [SameRows]
  | cons x l ih =>
      cases l' with
      | nil => simp [SameRows]
      | cons y l' => rw [List.cons_beq_cons, Bool.and_eq_true, ih, sameRows_cons]

theorem sameRows_iff_getElem? : SameRows l l' ↔ l.length = l'.length ∧
    ∀ (i : Nat) x y, l[i]? = some x → l'[i]? = some y → (x == y) = true := by
  rw [SameRows, List.forall₂_iff_get]
  refine and_congr_right fun _ => ⟨fun h i x y hx hy => ?_, fun h i hi hi' => ?_⟩
  · obtain ⟨hi, rfl⟩ := List.getElem?_eq_some_iff.mp hx
    obtain ⟨hi', rfl⟩ := List.getElem?_eq_some_iff.mp hy
    exact h i hi hi'
  · exact h i _ _ (List.getElem?_eq_getElem hi) (List.getElem?_eq_getElem hi')

end Rows

/-- Equality of collections is equality of their rows. -/
def ComparesRows {C E : Type} [BEq C] [BEq E] (row : C → List E) : Prop :=
  ∀ s t, (s == t) = true ↔ SameRows (row s) (row t)

namespace ComparesRows

variable {C E : Type} [BEq C] [BEq E] {row : C → List E}

theorem beq_self_iff (h : ComparesRows row) (s : C) :
    (s == s) = true ↔ ∀ x ∈ row s, (x == x) = true :=
  (h s s).trans sameRows_self_iff

theorem partialEquiv (h : ComparesRows row) [PartialEquivBEq E] : PartialEquivBEq C where
  symm hst := (h _ _).mpr ((h _ _).mp hst).symm
  trans hst htu := (h _ _).mpr (((h _ _).mp hst).trans ((h _ _).mp htu))

end ComparesRows

/-! ## Sequences -/

section Sequences

variable {α : Type} [BEq α]

theorem Chain.same_iff {c d : Chain α} : c.same d = true ↔ SameRows c.backwards d.backwards := by
  induction c generalizing d with
  | nil => cases d <;> simp [same, backwards, SameRows]
  | snoc before last size ih =>
      cases d with
      | nil => simp [same, backwards, SameRows]
      | snoc before' last' size' =>
          rw [same, backwards, backwards, Bool.and_eq_true, ih, sameRows_cons]

/-- Where the elements agree there are equally many, so the sizes decide nothing. -/
theorem Sequence.comparesRows_toList : ComparesRows (toList : Sequence α → List α) := by
  intro s t
  have hchains : s.chain.same t.chain = true ↔ SameRows s.toList t.toList := by
    rw [Chain.same_iff, Chain.backwards_eq_reverse, Chain.backwards_eq_reverse, sameRows_reverse]
    rfl
  change (s.size == t.size && s.chain.same t.chain) = true ↔ _
  rw [Bool.and_eq_true, hchains, beq_iff_eq, size_eq_length, size_eq_length]
  exact and_iff_right_of_imp SameRows.length_eq

theorem TracedSequence.comparesRows_items : ComparesRows (items : TracedSequence α → List α) :=
  fun s t => (Sequence.comparesRows_toList s t).trans (sameRows_map (f := Tagged.item)).symm

/-- What equality of sequences is. The tags of nodes have no part in it. -/
structure Sequence.Equality (α : Type) [BEq α] : Prop where
  places : ∀ s t : Sequence α, (s == t) = true ↔ s.size = t.size ∧
    ∀ i x y, s.get? i = some x → t.get? i = some y → (x == y) = true
  untagged : ∀ s t : TracedSequence α, (s == t) = (ofList s.items == ofList t.items)
  self : ∀ s : Sequence α, (s == s) = true ↔ ∀ x ∈ s.toList, (x == x) = true
  partialEquiv : PartialEquivBEq α → PartialEquivBEq (Sequence α)

theorem Sequence.equality (α : Type) [BEq α] : Equality α where
  places s t := by
    simp only [comparesRows_toList s t, sameRows_iff_getElem?, size_eq_length, get?_eq_getElem?]
  untagged s t := by
    rw [Bool.eq_iff_iff, TracedSequence.comparesRows_items s t, comparesRows_toList,
      toList_ofList, toList_ofList]
  self := comparesRows_toList.beq_self_iff
  partialEquiv _ := comparesRows_toList.partialEquiv

end Sequences

/-! ## Maps -/

section Maps

variable {K V : Type} [BEq K] [BEq V]

theorem entry_beq_iff {a b : K × V} :
    (a == b) = true ↔ (a.1 == b.1) = true ∧ (a.2 == b.2) = true := Bool.and_eq_true_iff

instance entryPartialEquiv [PartialEquivBEq K] [PartialEquivBEq V] : PartialEquivBEq (K × V) where
  symm h := by
    rw [entry_beq_iff] at h ⊢
    exact ⟨BEq.symm h.1, BEq.symm h.2⟩
  trans h h' := by
    rw [entry_beq_iff] at h h' ⊢
    exact ⟨BEq.trans h.1 h'.1, BEq.trans h.2 h'.2⟩

/-- What equality of maps is, whose entries stand in a row. -/
structure EntryEquality {M : Type} [BEq M] (entries : M → List (K × V)) : Prop where
  places : ∀ m n, (m == n) = true ↔ (entries m).length = (entries n).length ∧
    ∀ (i : Nat) k v k' v', (entries m)[i]? = some (k, v) → (entries n)[i]? = some (k', v') →
      (k == k') = true ∧ (v == v') = true
  self : ∀ m, (m == m) = true ↔ ∀ entry ∈ entries m,
    (entry.1 == entry.1) = true ∧ (entry.2 == entry.2) = true
  partialEquiv : PartialEquivBEq K → PartialEquivBEq V → PartialEquivBEq M

theorem ComparesRows.entryEquality {M : Type} [BEq M] {entries : M → List (K × V)}
    (h : ComparesRows entries) : EntryEquality entries where
  places m n := by
    simp only [h m n, sameRows_iff_getElem?, Prod.forall, entry_beq_iff]
  self m := by simp only [h.beq_self_iff m, entry_beq_iff]
  partialEquiv _ _ := h.partialEquiv

end Maps

/-! ## Elements -/

namespace Elem

theorem sameItems_iff_sameRows {xs ys : List Elem} :
    sameItems xs ys = true ↔ SameRows xs ys := by
  induction xs generalizing ys with
  | nil => cases ys <;> simp [sameItems, SameRows]
  | cons x xs ih =>
      cases ys with
      | nil => simp [sameItems, SameRows]
      | cons y ys =>
          rw [sameItems, Bool.and_eq_true, ih, sameRows_cons]
          rfl

/-- Lists inside elements are compared as sequences are. -/
theorem list_beq_list (s t : Sequence Elem) :
    (list s.toList == list t.toList) = (s == t) := by
  rw [Bool.eq_iff_iff, Sequence.comparesRows_toList s t]
  exact sameItems_iff_sameRows

end Elem

/-! ## All collections -/

open Program.OnSequences in
/-- Sequences and maps are compared entry by entry, whatever nodes they share, and what is known of
the equality of entries carries over. Elements, however deep, are equal when they differ in nothing
but the signs of zeros and no not-a-number stands in them; so registers of a run that end in one
node are equal exactly when no not-a-number stands in any of their elements. -/
theorem collections_compare_entries [Glyphs] :
    (∀ (α : Type) [BEq α], Sequence.Equality α)
    ∧ (∀ (V : Type) [BEq V], EntryEquality (PropertyMap.entries (V := V)))
    ∧ (∀ (K V : Type) [BEq K] [BEq V], EntryEquality (KeyedMap.entries (K := K) (V := V)))
    ∧ (∀ s t : Sequence Elem, (Elem.list s.toList == Elem.list t.toList) = (s == t))
    ∧ (∀ x y : Elem, (x == y) = true ↔ ¬ x.HoldsNaN ∧ x.unsignedZeros = y.unsignedZeros)
    ∧ (∀ x : Elem, (x == x) = true ↔ ¬ x.HoldsNaN)
    ∧ ∀ (items : List Elem) (steps : List (Program.Step Action)) (i j : Nat) (s t : Register),
        (registers items steps)[i]? = some s → (registers items steps)[j]? = some t →
          s.sharesNode t = true → ((s == t) = true ↔ ∀ x ∈ s.items, ¬ x.HoldsNaN) := by
  refine ⟨Sequence.equality, fun V _ => ?_, fun K V _ _ => ?_, Elem.list_beq_list, Elem.same_iff,
    Elem.same_self_iff, fun items steps i j s t hs ht hshares => ?_⟩
  · exact ComparesRows.entryEquality fun m n => beq_iff_sameRows
  · exact ComparesRows.entryEquality fun m n => beq_iff_sameRows
  · obtain rfl := registers_eq_of_sharesNode hs ht hshares
    rw [TracedSequence.comparesRows_items.beq_self_iff]
    exact forall₂_congr fun x _ => Elem.same_self_iff x

/-- The zeros inside two nested lists are equal whatever their signs, and a not-a-number there keeps
a list from being equal to itself. -/
example : (Elem.list [.list [.float (.finite true 0)]] == .list [.list [.float (.finite false 0)]],
    Elem.list [.list [.float .nan]] == .list [.list [.float .nan]]) = (true, false) := by
  decide

end Biparse
