import Biparse.Sequence.Permutation
import Mathlib.Data.List.Perm.Subperm

/-!
# Permutations reorder and restore

What a permutation makes of a list is a relation between the two (`Permutation.Arranges`): the
element at each place is the one at the index the order has there. Forward finds the only list that
is so related to a given one, and backward the only one it comes from (`forward_eq_ok_iff`,
`backward_eq_some_iff`), so the two are inverse to each other.

Which orders are permutations is found out in one pass that stops at the first index that is out of
range or comes again. That an order which gets through misses no index is a matter of counting
(`perm_range_iff`).

Forward reads the elements one by one; backward fills slots, and that every slot is filled rests on
each index below the length being in the order (`mem_order_iff`). That no index lies outside needs
only the range of the order (`fill?_replicate`). So both directions run on the sequences of the
order's length and undo each other there (`permuting_is_bijective`).
-/

namespace Biparse.Permutation

variable {α : Type} {p : Permutation}

/-! ## Which orders are accepted -/

section Orders

variable {order : List Nat}

theorem ofOrder_eq_ok_iff : ofOrder order = .ok p ↔ p.order = order := by
  unfold ofOrder
  constructor
  · intro h
    split at h
    · rw [← Except.ok.inj h]
    · cases h
  · rintro rfl
    rw [dif_pos (allFresh_replicate_iff.mpr ⟨p.inRange, p.nodup⟩)]

/-- Distinct indices below the length are all of them: there is no room to leave one out. -/
theorem perm_range_iff :
    order.Perm (List.range order.length) ↔ (∀ i ∈ order, i < order.length) ∧ order.Nodup := by
  constructor
  · intro h
    exact ⟨fun i hi => List.mem_range.mp (h.mem_iff.mp hi), h.nodup_iff.mpr List.nodup_range⟩
  · rintro ⟨hrange, hnodup⟩
    have hsubset : order ⊆ List.range order.length := fun i hi => List.mem_range.mpr (hrange i hi)
    exact (List.subperm_of_subset hnodup hsubset).perm_of_length_le (by simp)

/-- Once is enough: the indices that have to be there fill the whole order. -/
theorem perm_range_iff_count :
    order.Perm (List.range order.length) ↔ ∀ i < order.length, order.count i = 1 := by
  constructor
  · intro h i hi
    rw [h.count_eq, List.count_range, if_pos hi]
  · intro h
    have hsubset : List.range order.length ⊆ order := fun i hi => by
      have hcount := h i (List.mem_range.mp hi)
      exact List.count_pos_iff.mp (by omega)
    exact ((List.subperm_of_subset List.nodup_range hsubset).perm_of_length_le (by simp)).symm

theorem mem_order_iff {i : Nat} : i ∈ p.order ↔ i < p.size := by
  have hperm : p.order.Perm (List.range p.order.length) := perm_range_iff.mpr ⟨p.inRange, p.nodup⟩
  rw [hperm.mem_iff, List.mem_range, size]

/-- An order is accepted exactly when it is a rearrangement of the indices below its length, so
that each of them is in it exactly once. Any other order is handed back with the complaint. -/
theorem rearrangements_accepted (order : List Nat) :
    ((∃ p, ofOrder order = .ok p) ↔ order.Perm (List.range order.length))
    ∧ (order.Perm (List.range order.length) ↔ ∀ i < order.length, order.count i = 1)
    ∧ (∀ p, ofOrder order = .ok p → p.order = order)
    ∧ (¬ order.Perm (List.range order.length) →
      ofOrder order = .error (.invalidPermutation order)) := by
  refine ⟨?_, perm_range_iff_count, fun p => ofOrder_eq_ok_iff.mp, fun h => ?_⟩
  · rw [perm_range_iff]
    constructor
    · rintro ⟨p, hp⟩
      obtain rfl := ofOrder_eq_ok_iff.mp hp
      exact ⟨p.inRange, p.nodup⟩
    · intro h
      exact ⟨⟨order, h.1, h.2⟩, ofOrder_eq_ok_iff.mpr rfl⟩
  · rw [ofOrder, dif_neg]
    rwa [allFresh_replicate_iff, ← perm_range_iff]

end Orders

/-- `arranged` lists the elements of `items` in the order of the permutation. -/
def Arranges (p : Permutation) (items arranged : List α) : Prop :=
  items.length = p.size ∧ arranged.map some = p.order.map fun i => items[i]?

theorem Arranges.length_eq {items arranged : List α} (h : p.Arranges items arranged) :
    arranged.length = p.size := by
  simpa [size] using congrArg List.length h.2

theorem Arranges.getElem?_eq {items arranged : List α} (h : p.Arranges items arranged) {j i : Nat}
    (hj : p.order[j]? = some i) : arranged[j]? = items[i]? := by
  have hsame := congrArg (·[j]?) h.2
  simp only [List.getElem?_map, hj, Option.map_some] at hsame
  cases hitem : arranged[j]? with
  | none => simp [hitem] at hsame
  | some x =>
      rw [hitem, Option.map_some] at hsame
      exact Option.some.inj hsame

/-! ## Forward -/

theorem map_some_arrange (items : List α) (h : items.length = p.size) :
    (p.arrange items h).map some = p.order.map fun i => items[i]? := by
  unfold arrange
  rw [List.map_map]
  conv_rhs => rw [← List.attach_map_subtype_val p.order, List.map_map]
  refine List.map_congr_left fun ⟨i, hi⟩ _ => ?_
  have hlt : i < items.length := h ▸ p.inRange i hi
  simp [List.getElem?_eq_getElem hlt]

theorem forward_eq_ok_iff {context : Span} {s r : Sequence α} :
    (p.mapping α).forward context s = .ok r ↔ p.Arranges s.toList r.toList := by
  simp only [mapping, Arranges]
  by_cases h : s.toList.length = p.size
  · rw [dif_pos h, ← map_some_arrange s.toList h, Except.ok.injEq, ← Sequence.toList_inj,
      Sequence.toList_ofList, List.map_inj_right fun _ _ => Option.some.inj]
    exact ⟨fun heq => ⟨h, heq.symm⟩, fun heq => heq.2.symm⟩
  · simp [h]

/-! ## Backward -/

section Scatter

variable {writes : List (α × Nat)} {slots : List (Option α)} {k : Nat}

theorem length_foldl_set (writes : List (α × Nat)) (slots : List (Option α)) :
    (writes.foldl (fun slots (item, i) => slots.set i (some item)) slots).length
      = slots.length := by
  induction writes generalizing slots with
  | nil => rfl
  | cons write rest ih => rw [List.foldl_cons, ih, List.length_set]

/-- A slot that is not written keeps what it holds. -/
theorem getElem?_foldl_set_of_notMem (hk : k ∉ writes.map Prod.snd) :
    (writes.foldl (fun slots (item, i) => slots.set i (some item)) slots)[k]? = slots[k]? := by
  induction writes generalizing slots with
  | nil => rfl
  | cons write rest ih =>
      rw [List.map_cons, List.mem_cons, not_or] at hk
      rw [List.foldl_cons, ih hk.2, List.getElem?_set_ne (Ne.symm hk.1)]

/-- A slot that is written once holds what was written. -/
theorem getElem?_foldl_set_of_mem {item : α} (hnodup : (writes.map Prod.snd).Nodup)
    (hmem : (item, k) ∈ writes) (hk : k < slots.length) :
    (writes.foldl (fun slots (item, i) => slots.set i (some item)) slots)[k]?
      = some (some item) := by
  induction writes generalizing slots with
  | nil => cases hmem
  | cons write rest ih =>
      rw [List.map_cons, List.nodup_cons] at hnodup
      rw [List.foldl_cons]
      rcases List.mem_cons.mp hmem with rfl | hrest
      · rw [getElem?_foldl_set_of_notMem hnodup.1, List.getElem?_set_self hk]
      · exact ih hnodup.2 hrest (by rwa [List.length_set])

end Scatter

theorem getElem?_scatter {arranged : List α} (hlength : arranged.length = p.size) {j i : Nat}
    (hj : p.order[j]? = some i) : (scatter p.order arranged)[i]? = arranged[j]?.map some := by
  have hjlt : j < arranged.length := by
    rw [hlength]
    exact (List.getElem?_eq_some_iff.mp hj).1
  have hitem : arranged[j]? = some arranged[j] := List.getElem?_eq_getElem hjlt
  have hindices : (arranged.zip p.order).map Prod.snd = p.order :=
    List.map_snd_zip (Nat.le_of_eq hlength.symm)
  have hmem : (arranged[j], i) ∈ arranged.zip p.order := by
    refine List.mem_of_getElem? (i := j) ?_
    rw [List.getElem?_zip_eq_some]
    exact ⟨hitem, hj⟩
  have hlt : i < (List.replicate p.order.length (none : Option α)).length := by
    simpa using p.inRange i (List.mem_of_getElem? hj)
  rw [hitem, scatter, getElem?_foldl_set_of_mem (hindices.symm ▸ p.nodup) hmem hlt, Option.map_some]

theorem scatter_eq_map_some_iff {items arranged : List α} (hlength : arranged.length = p.size) :
    scatter p.order arranged = items.map some ↔ p.Arranges items arranged := by
  have hslots : (scatter p.order arranged).length = p.size := by
    rw [scatter, length_foldl_set, List.length_replicate, size]
  constructor
  · intro h
    refine ⟨by simpa [hslots] using (congrArg List.length h).symm, ?_⟩
    refine List.ext_getElem? fun j => ?_
    rw [List.getElem?_map, List.getElem?_map]
    cases hj : p.order[j]? with
    | none =>
        have hout : arranged.length ≤ j := hlength ▸ List.getElem?_eq_none_iff.mp hj
        simp [List.getElem?_eq_none hout]
    | some i =>
        have hslot := getElem?_scatter hlength hj
        have hjlt : j < arranged.length := hlength ▸ (List.getElem?_eq_some_iff.mp hj).1
        rw [h, List.getElem?_map, List.getElem?_eq_getElem hjlt] at hslot
        rw [List.getElem?_eq_getElem hjlt]
        cases hitem : items[i]? <;> simp_all
  · intro h
    have hitems : items.length = p.size := h.1
    refine List.ext_getElem? fun i => ?_
    by_cases hi : i < p.size
    · obtain ⟨j, hj⟩ := List.mem_iff_getElem?.mp (mem_order_iff.mpr hi)
      rw [getElem?_scatter hlength hj, h.getElem?_eq hj, List.getElem?_map]
    · rw [List.getElem?_eq_none (by omega), List.getElem?_eq_none (by simp; omega)]

theorem mapM_id_eq_some_iff {slots : List (Option α)} {items : List α} :
    slots.mapM id = some items ↔ slots = items.map some := by
  induction slots generalizing items with
  | nil => cases items <;> simp
  | cons slot rest ih =>
      cases items with
      | nil => cases slot <;> simp [List.mapM_cons, Option.bind_eq_some_iff]
      | cons item items =>
          cases slot with
          | none => simp [List.mapM_cons]
          | some x => simp [List.mapM_cons, Option.bind_eq_some_iff, ih, and_comm]

theorem backward_eq_some_iff {s r : Sequence α} :
    (p.mapping α).backward r = some s ↔ p.Arranges s.toList r.toList := by
  simp only [mapping]
  by_cases h : r.size = p.size
  · rw [if_pos h, Option.map_eq_some_iff]
    rw [Sequence.size_eq_length] at h
    simp only [mapM_id_eq_some_iff, scatter_eq_map_some_iff h]
    constructor
    · rintro ⟨items, harranges, rfl⟩
      rwa [Sequence.toList_ofList]
    · intro harranges
      exact ⟨s.toList, harranges, Sequence.ofList_toList s⟩
  · rw [if_neg h]
    refine ⟨(nomatch ·), fun harranges => ?_⟩
    exact absurd (Sequence.size_eq_length r ▸ harranges.length_eq) h

/-! ## Both directions on lists -/

theorem mapM_eq_some_iff {β : Type} {f : β → Option α} {l : List β} {items : List α} :
    l.mapM f = some items ↔ items.map some = l.map f := by
  rw [eq_comm (a := items.map some), ← mapM_id_eq_some_iff, List.mapM_map]
  rfl

theorem map_some_eq_swap {x y : Option α} (h : x.map some = some y) : y.map some = some x := by
  cases x with
  | none => cases h
  | some a => rw [← Option.some.inj h, Option.map_some]

/-- The list that was arranged has at each index the element at the place of the index in the
order. -/
theorem arranges_iff_restored {items arranged : List α} :
    p.Arranges items arranged ↔ arranged.length = p.size
      ∧ items.map some = (List.range p.size).map fun i => arranged[p.order.idxOf i]? := by
  constructor
  · intro h
    refine ⟨h.length_eq, List.ext_getElem? fun i => ?_⟩
    by_cases hi : i < p.size
    · have hplace : p.order[p.order.idxOf i]? = some i :=
        List.getElem?_idxOf (mem_order_iff.mpr hi)
      rw [List.getElem?_map, List.getElem?_map, List.getElem?_range hi, Option.map_some,
        h.getElem?_eq hplace, List.getElem?_eq_getElem (h.1 ▸ hi), Option.map_some]
    · have hitems : items.length = p.size := h.1
      rw [List.getElem?_eq_none (by simp; omega), List.getElem?_eq_none (by simp; omega)]
  · rintro ⟨hlength, hitems⟩
    have hsize : items.length = p.size := by simpa using congrArg List.length hitems
    refine ⟨hsize, List.ext_getElem? fun j => ?_⟩
    by_cases hj : j < p.size
    · have hplace : p.order[j]? = some p.order[j] := List.getElem?_eq_getElem hj
      have hi : p.order[j] < p.size := p.inRange _ (List.getElem_mem hj)
      have hsame := congrArg (·[p.order[j]]?) hitems
      simp only [List.getElem?_map, List.getElem?_range hi, Option.map_some,
        p.nodup.idxOf_getElem j hj] at hsame
      rw [List.getElem?_map, List.getElem?_map, hplace, Option.map_some]
      exact map_some_eq_swap hsame
    · rw [List.getElem?_eq_none (by simp; omega),
        List.getElem?_eq_none (by simpa [size] using Nat.not_lt.mp hj)]

theorem map_toList_eq_some_iff {made : Option (Sequence α)} {r : List α} :
    made.map Sequence.toList = some r ↔ made = some (.ofList r) := by
  rw [Option.map_eq_some_iff]
  constructor
  · rintro ⟨s, rfl, rfl⟩
    rw [Sequence.ofList_toList]
  · rintro rfl
    exact ⟨_, rfl, Sequence.toList_ofList r⟩

theorem exists_map_some_eq {slots : List (Option α)} (h : ∀ x ∈ slots, x.isSome) :
    ∃ items : List α, items.map some = slots :=
  ⟨slots.pmap Option.get h, by simp [List.map_pmap]⟩

/-- Forward reorders just the sequences of the permutation's size. -/
theorem exists_forward_eq_ok_iff {context : Span} {s : Sequence α} :
    (∃ r, (p.mapping α).forward context s = .ok r) ↔ s.toList.length = p.size := by
  constructor
  · rintro ⟨r, hr⟩
    exact (forward_eq_ok_iff.mp hr).1
  · intro h
    exact ⟨_, dif_pos h⟩

/-- Backward restores just the sequences of the permutation's size. -/
theorem exists_backward_eq_some_iff {r : Sequence α} :
    (∃ s, (p.mapping α).backward r = some s) ↔ r.toList.length = p.size := by
  constructor
  · rintro ⟨s, hs⟩
    exact (backward_eq_some_iff.mp hs).length_eq
  · intro h
    have hfilled : ∀ x ∈ (List.range p.size).map fun i => r.toList[p.order.idxOf i]?,
        x.isSome := by
      intro x hx
      obtain ⟨i, hi, rfl⟩ := List.mem_map.mp hx
      have hplace := List.idxOf_lt_length_of_mem (mem_order_iff.mpr (List.mem_range.mp hi))
      rw [List.getElem?_eq_getElem (h ▸ hplace)]
      rfl
    obtain ⟨items, hitems⟩ := exists_map_some_eq hfilled
    refine ⟨.ofList items, backward_eq_some_iff.mpr (arranges_iff_restored.mpr ⟨h, ?_⟩)⟩
    rw [Sequence.toList_ofList, hitems]

/-- Forward lists the elements at the indices of the order. -/
theorem map_toList_forward (context : Span) (s : Sequence α) :
    ((p.mapping α).forward context s).toOption.map Sequence.toList
      = if s.toList.length = p.size then p.order.mapM fun i => s.toList[i]? else none := by
  ext r
  rw [map_toList_eq_some_iff, toOption_eq_some_iff, forward_eq_ok_iff, Sequence.toList_ofList,
    Arranges, Option.ite_none_right_eq_some, mapM_eq_some_iff]

/-- Backward puts each element where its index is. -/
theorem map_toList_backward (s : Sequence α) :
    ((p.mapping α).backward s).map Sequence.toList
      = if s.toList.length = p.size
        then (List.range p.size).mapM fun i => s.toList[p.order.idxOf i]? else none := by
  ext r
  rw [map_toList_eq_some_iff, backward_eq_some_iff, Sequence.toList_ofList, arranges_iff_restored,
    Option.ite_none_right_eq_some, mapM_eq_some_iff]

/-! ## Both directions as inverses -/

/-- Fills slots one by one, unless an index has no slot. -/
def fill? (slots : List (Option α)) : List (α × Nat) → Option (List (Option α))
  | [] => some slots
  | (item, i) :: rest => if i < slots.length then fill? (slots.set i (some item)) rest else none

theorem fill?_eq_some {writes : List (α × Nat)} {slots : List (Option α)}
    (h : ∀ write ∈ writes, write.2 < slots.length) :
    fill? slots writes
      = some (writes.foldl (fun slots (item, i) => slots.set i (some item)) slots) := by
  induction writes generalizing slots with
  | nil => rfl
  | cons write rest ih =>
      have hrest : ∀ other ∈ rest, other.2 < (slots.set write.2 (some write.1)).length := by
        intro other hother
        rw [List.length_set]
        exact h other (List.mem_cons_of_mem _ hother)
      rw [fill?, if_pos (h write List.mem_cons_self), ih hrest, List.foldl_cons]

/-- Indices of an order all have their slot, so filling never stops. -/
theorem fill?_replicate (arranged : List α) :
    fill? (.replicate p.order.length none) (arranged.zip p.order)
      = some (scatter p.order arranged) := by
  rw [scatter, fill?_eq_some]
  intro write hwrite
  rw [List.length_replicate]
  exact p.inRange _ (List.of_mem_zip hwrite).2

/-- On the sequences of its length a permutation runs forward and backward, and the two undo each
other; other sequences are refused both ways. Forward has at each place the element at the index
that the order has there. Backward fills each slot, and neither reads or writes out of bounds. -/
theorem permuting_is_bijective {order : List Nat} {p : Permutation} (hp : ofOrder order = .ok p)
    (context : Span) (s : Sequence α) :
    ((∃ r, (p.mapping α).forward context s = .ok r) ↔ s.size = order.length)
    ∧ (s.size ≠ order.length →
      (p.mapping α).forward context s = .error (.arity order.length s.size))
    ∧ (∀ r, (p.mapping α).forward context s = .ok r → r.size = order.length
      ∧ ∀ j i, order[j]? = some i → i < s.size ∧ r.get? j = s.get? i)
    ∧ ((∃ r, (p.mapping α).backward s = some r) ↔ s.size = order.length)
    ∧ (∀ r, (p.mapping α).backward s = some r →
      fill? (.replicate order.length none) (s.toList.zip order) = some (r.toList.map some))
    ∧ (s.size = order.length →
      (∃ r, (p.mapping α).forward context s = .ok r ∧ (p.mapping α).backward r = some s)
      ∧ ∃ r, (p.mapping α).backward s = some r ∧ (p.mapping α).forward context r = .ok s) := by
  obtain rfl := ofOrder_eq_ok_iff.mp hp
  have hsize : s.size = p.order.length ↔ s.toList.length = p.size := by
    rw [Sequence.size_eq_length, size]
  refine ⟨exists_forward_eq_ok_iff.trans hsize.symm, ?_, ?_,
    exists_backward_eq_some_iff.trans hsize.symm, ?_, ?_⟩
  · intro hne
    exact dif_neg (mt hsize.mpr hne)
  · intro r hr
    have harranges := forward_eq_ok_iff.mp hr
    refine ⟨(Sequence.size_eq_length r).trans harranges.length_eq, ?_⟩
    intro j i hj
    have hi : i < p.size := p.inRange i (List.mem_of_getElem? hj)
    rw [Sequence.size_eq_length, harranges.1, Sequence.get?_eq_getElem?, Sequence.get?_eq_getElem?]
    exact ⟨hi, harranges.getElem?_eq hj⟩
  · intro r hr
    have harranges := backward_eq_some_iff.mp hr
    rw [fill?_replicate, (scatter_eq_map_some_iff harranges.length_eq).mpr harranges]
  · intro h
    obtain ⟨r, hr⟩ := exists_forward_eq_ok_iff.mpr (hsize.mp h)
    obtain ⟨r', hr'⟩ := exists_backward_eq_some_iff.mpr (hsize.mp h)
    refine ⟨⟨r, hr, ?_⟩, ⟨r', hr', ?_⟩⟩
    · exact backward_eq_some_iff.mpr (forward_eq_ok_iff.mp hr)
    · exact forward_eq_ok_iff.mpr (backward_eq_some_iff.mp hr')

/-- The order that moves the first of three words to the end takes the last one back to the front. -/
theorem permuting_is_bijective_rotated :
    ofOrder [1, 2, 0] = .ok ⟨[1, 2, 0], by decide, by decide⟩
      ∧ (mapping String ⟨[1, 2, 0], by decide, by decide⟩).forward ⟨0, 5⟩ (.ofList ["a", "b", "c"])
        = .ok (.ofList ["b", "c", "a"])
      ∧ (mapping String ⟨[1, 2, 0], by decide, by decide⟩).backward (.ofList ["b", "c", "a"])
        = some (.ofList ["a", "b", "c"]) := by
  have hp : ofOrder [1, 2, 0] = .ok ⟨[1, 2, 0], by decide, by decide⟩ := ofOrder_eq_ok_iff.mpr rfl
  obtain ⟨-, -, -, -, -, hinverse⟩ :=
    permuting_is_bijective hp ⟨0, 5⟩ (.ofList ["a", "b", "c"])
  obtain ⟨⟨r, hforward, hbackward⟩, -⟩ := hinverse rfl
  obtain rfl : .ofList ["b", "c", "a"] = r := Except.ok.inj hforward
  exact ⟨hp, hforward, hbackward⟩

end Biparse.Permutation
