import Biparse.Proofs.KeyedMap.PartialKeys
import Biparse.Proofs.PropertyMap.Edits

/-!
# Keyed maps and property maps agree up to order

Given one history of edits, a keyed map with texts for keys and a property map bind the same names
to the same values. They differ in the order alone: a property map lists its names by the last write
of each, a keyed map by the write that opened the binding, the first one since the name was last
removed (`maps_agree_up_to_order`).
-/

namespace Biparse.KeyedMap

variable {V : Type} {edits : List (Edit String V)} {key : String} {value : V}

/-- The map that a history makes of the empty one. -/
def ofEdits (edits : List (Edit String V)) : KeyedMap String V := edits.foldl edit empty

theorem ofEdits_concat (edits : List (Edit String V)) (e : Edit String V) :
    ofEdits (edits ++ [e]) = (ofEdits edits).edit e := by
  simp [ofEdits]

theorem contains_iff_mem_keys {m : KeyedMap String V} : m.contains key = true ↔ key ∈ m.keys := by
  simp [contains, keys]

theorem nodup_keys (m : KeyedMap String V) : m.keys.Nodup := by
  rw [keys, List.nodup_iff_pairwise_ne, List.pairwise_map]
  exact m.distinct.imp ne_of_beq_false

/-! ## The same bindings -/

theorem get?_edit_remove (m : KeyedMap String V) (k key : String) :
    (m.edit (.remove k)).get? key = if key = k then none else m.get? key := by
  rw [get?, entries_edit, editEntries, find?_drop m.distinct]
  simp [get?]

theorem get?_ofEdits (edits : List (Edit String V)) (key : String) :
    (ofEdits edits).get? key = (PropertyMap.ofEdits edits).get? key := by
  induction edits using List.reverseRecOn with
  | nil => rfl
  | append_singleton edits e ih =>
      rw [ofEdits_concat, PropertyMap.ofEdits_concat]
      cases e with
      | write k written =>
          rw [edit, PropertyMap.edit, get?_insert, PropertyMap.get?_insert, ih]
          simp
      | remove k =>
          rw [get?_edit_remove, PropertyMap.edit, PropertyMap.get?_erase, ih]

theorem get?_eq_lookup (m : KeyedMap String V) (key : String) :
    m.get? key = m.entries.lookup key := by
  unfold get?
  induction m.entries with
  | nil => rfl
  | cons entry rest ih =>
      rw [List.find?_cons, List.lookup_cons, BEq.comm (a := entry.1)]
      cases key == entry.1
      · exact ih
      · rfl

theorem mem_entries_iff {m : KeyedMap String V} :
    (key, value) ∈ m.entries ↔ m.get? key = some value := by
  rw [get?_eq_lookup, lookup_eq_some_iff_mem (nodup_keys m)]

theorem entries_perm (edits : List (Edit String V)) :
    (ofEdits edits).entries.Perm (PropertyMap.ofEdits edits).entries := by
  have hkeyed : (ofEdits edits).entries.Nodup := (nodup_keys (ofEdits edits)).of_map
  have hproperties : (PropertyMap.ofEdits edits).entries.Nodup :=
    (PropertyMap.ofEdits edits).nodup.of_map
  rw [List.perm_ext_iff_of_nodup hkeyed hproperties]
  rintro ⟨key, value⟩
  rw [mem_entries_iff, get?_ofEdits, PropertyMap.get?_eq_some_iff_mem]

/-! ## Another order -/

theorem keys_edit_remove (m : KeyedMap String V) (k : String) :
    (m.edit (.remove k)).keys = m.keys.filter (· != k) := by
  rw [keys, entries_edit, editEntries, drop_eq_filter m.distinct, keys, List.filter_map]
  rfl

/-- A write to a bound name keeps its place in the list, and a new name comes last. -/
theorem listedBy_ofEdits (edits : List (Edit String V)) :
    ListedBy (Edit.OpeningWrite edits) (ofEdits edits).keys := by
  induction edits using List.reverseRecOn with
  | nil =>
      refine ⟨fun key => ⟨nofun, ?_⟩, List.Pairwise.nil⟩
      rintro ⟨i, hopen⟩
      exact absurd hopen.lt_length (Nat.not_lt_zero i)
  | append_singleton edits e ih =>
      rw [ofEdits_concat]
      cases e with
      | write k written =>
          rw [edit, keys_insert]
          by_cases hbound : ∃ i, Edit.OpeningWrite edits i k
          · rw [if_pos (contains_iff_mem_keys.mpr ((ih.mem_iff k).mpr hbound))]
            refine ih.congr fun i key => ?_
            rw [Edit.openingWrite_concat_write, or_iff_left]
            rintro ⟨-, rfl, hnone⟩
            obtain ⟨j, hopen⟩ := hbound
            exact hnone j hopen
          · rw [if_neg fun hkey => hbound ((ih.mem_iff k).mp (contains_iff_mem_keys.mp hkey))]
            have hfresh : ∀ i, ¬ Edit.OpeningWrite edits i k := not_exists.mp hbound
            refine (ih.concat hfresh fun _ _ => Edit.OpeningWrite.lt_length).congr fun i key => ?_
            rw [Edit.openingWrite_concat_write]
            refine or_congr_right (and_congr_right fun _ => and_iff_left_of_imp ?_)
            rintro rfl
            exact hfresh
      | remove k =>
          rw [keys_edit_remove]
          exact (ih.without k).congr fun _ _ => Edit.openingWrite_concat_remove

/-- The two kinds of map that a history makes hold the same bindings. The property map lists them by
the last write of each name, the keyed map by the first write since its last removal. -/
theorem maps_agree_up_to_order (edits : List (Edit String V)) :
    (∀ key, (ofEdits edits).get? key = (PropertyMap.ofEdits edits).get? key)
      ∧ (∀ key, (ofEdits edits).contains key = (PropertyMap.ofEdits edits).contains key)
      ∧ (ofEdits edits).size = (PropertyMap.ofEdits edits).size
      ∧ (ofEdits edits).entries.Perm (PropertyMap.ofEdits edits).entries
      ∧ ListedBy (Edit.LatestWrite edits) (PropertyMap.ofEdits edits).keys
      ∧ ListedBy (Edit.OpeningWrite edits) (ofEdits edits).keys := by
  refine ⟨get?_ofEdits edits, fun key => ?_, (entries_perm edits).length_eq, entries_perm edits,
    PropertyMap.listedBy_ofEdits edits, listedBy_ofEdits edits⟩
  rw [contains_eq_isSome_get?, get?_ofEdits, (PropertyMap.coherent _).isSome_get?]

/-- Two names written in turn, the first one once more: the orders differ. -/
example :
    (ofEdits [.write "a" 1, .write "b" 2, .write "a" 3]).keys = ["a", "b"]
      ∧ (PropertyMap.ofEdits [.write "a" 1, .write "b" 2, .write "a" 3]).keys = ["b", "a"] := by
  decide

end Biparse.KeyedMap
