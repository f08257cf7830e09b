import Biparse.Proofs.Edit
import Biparse.Proofs.PropertyMap.Recency
import Mathlib.Data.Finset.Card

/-!
# Property maps after any edits

A property map that a history of writes and removals has made binds a key when the last edit about
the key is a write, to the value of that write, and lists its keys in the order of these writes
(`edits_leave_latest_writes`). Both edits are stated on bare entries as well (`editEntries`): a
write replaces every binding of its key and a removal takes away the first, and no key is ever
bound twice by them.
-/

namespace Biparse.PropertyMap

variable {V : Type} {edits : List (Edit String V)} {key : String} {value : V}

/-- The map after one edit. -/
def edit (m : PropertyMap V) : Edit String V → PropertyMap V
  | .write key value => m.insert key value
  | .remove key => m.erase key

/-- The map that a history makes of the empty one. -/
def ofEdits (edits : List (Edit String V)) : PropertyMap V := edits.foldl edit empty

/-- One edit of bare entries, whether or not their keys are distinct. -/
def editEntries (entries : List (String × V)) : Edit String V → List (String × V)
  | .write key value => entries.filter (fun entry => entry.1 != key) ++ [(key, value)]
  | .remove key => entries.eraseP fun entry => entry.1 == key

theorem entries_ofEdits (edits : List (Edit String V)) :
    (ofEdits edits).entries = edits.foldl editEntries [] := by
  refine (List.foldl_hom entries fun m e => ?_).symm
  cases e <;> rfl

theorem ofEdits_concat (edits : List (Edit String V)) (e : Edit String V) :
    ofEdits (edits ++ [e]) = (ofEdits edits).edit e := by
  simp [ofEdits]

theorem ofList_eq_ofEdits (bindings : List (String × V)) :
    ofList bindings = ofEdits (bindings.map fun binding => .write binding.1 binding.2) := by
  rw [ofEdits, List.foldl_map]
  rfl

/-! ## What is bound -/

theorem get?_ofEdits :
    (ofEdits edits).get? key = some value ↔ ∃ i, Edit.LastAt edits i (.write key value) := by
  induction edits using List.reverseRecOn with
  | nil => simp [ofEdits, get?, Edit.LastAt]
  | append_singleton edits e ih =>
      rw [ofEdits_concat]
      cases e with
      | write k written =>
          simp only [edit, get?_insert, Edit.lastAt_concat_write]
          by_cases hk : key = k
          · simp [hk, eq_comm]
          · simp [hk, ih]
      | remove k =>
          simp only [edit, get?_erase, Edit.lastAt_concat_remove]
          by_cases hk : key = k
          · simp [hk]
          · simp [hk, ih]

/-! ## In which order -/

theorem keys_without (key : String) (entries : List (String × V)) :
    (without key entries).map Prod.fst = (entries.map Prod.fst).filter (· != key) := by
  rw [without, List.filter_map]
  rfl

theorem without_eq_self_iff {entries : List (String × V)} :
    without key entries = entries ↔ key ∉ entries.map Prod.fst := by
  rw [without, List.filter_eq_self, List.mem_map]
  simp only [bne_iff_ne, ne_eq, not_exists, not_and]

theorem keys_insert (m : PropertyMap V) (key : String) (value : V) :
    (m.insert key value).keys = m.keys.filter (· != key) ++ [key] := by
  simp [keys, keys_without]

theorem keys_erase (m : PropertyMap V) (key : String) :
    (m.erase key).keys = m.keys.filter (· != key) := by
  simp [keys, keys_without]

/-- A write lists its key after all others, and each edit leaves the others in their order. -/
theorem listedBy_ofEdits (edits : List (Edit String V)) :
    ListedBy (Edit.LatestWrite edits) (ofEdits edits).keys := by
  induction edits using List.reverseRecOn with
  | nil => exact ⟨by simp [ofEdits, keys, Edit.LatestWrite, Edit.LastAt], List.Pairwise.nil⟩
  | append_singleton edits e ih =>
      rw [ofEdits_concat]
      cases e with
      | write k written =>
          rw [edit, keys_insert]
          have hbefore : ∀ i key, key ≠ k ∧ Edit.LatestWrite edits i key → i < edits.length := by
            rintro i key ⟨-, value, hlast⟩
            exact hlast.lt_length
          exact ((ih.without k).concat (fun _ hplace => hplace.1 rfl) hbefore).congr fun _ _ =>
            Edit.latestWrite_concat_write
      | remove k =>
          rw [edit, keys_erase]
          exact (ih.without k).congr fun _ _ => Edit.latestWrite_concat_remove

/-! ## What is seen of a map -/

/-- The views of a map tell the same about it. -/
structure Coherent (m : PropertyMap V) : Prop where
  mem_keys : ∀ key, key ∈ m.keys ↔ m.contains key = true
  isSome_get? : ∀ key, (m.get? key).isSome = m.contains key
  get?_iff : ∀ key value, m.get? key = some value ↔ (key, value) ∈ m.entries
  keys_eq : m.keys = m.entries.map Prod.fst

theorem coherent (m : PropertyMap V) : m.Coherent where
  mem_keys key := by rw [mem_keys_iff, contains_iff]
  isSome_get? key := by rw [Bool.eq_iff_iff, Option.isSome_iff_exists, contains_iff]
  get?_iff _ _ := get?_eq_some_iff_mem
  keys_eq := rfl

theorem size_eq_card {m : PropertyMap V} {bound : Finset String}
    (hbound : ∀ key, key ∈ bound ↔ key ∈ m.keys) : m.size = bound.card := by
  have hkeys : m.keys.toFinset = bound := by
    ext key
    rw [List.mem_toFinset, hbound]
  have hnodup : m.keys.Nodup := m.nodup
  rw [← hkeys, List.toFinset_card_of_nodup hnodup, keys, List.length_map, size]

theorem entries_erase_of_unbound {m : PropertyMap V} (h : m.contains key = false) :
    (m.erase key).entries = m.entries := by
  rw [entries_erase, without_eq_self_iff, ← keys, (coherent m).mem_keys, h]
  exact Bool.false_ne_true

/-- After any history of edits a key is bound when the last edit about it is a write, and then to
the value written; the keys are listed in the order of these writes, each once. -/
theorem edits_leave_latest_writes (edits : List (Edit String V)) :
    (ofEdits edits).entries = edits.foldl editEntries []
      ∧ (ofEdits edits).keys.Nodup
      ∧ (∀ key value, (ofEdits edits).get? key = some value ↔
          ∃ i, Edit.LastAt edits i (.write key value))
      ∧ ListedBy (Edit.LatestWrite edits) (ofEdits edits).keys
      ∧ (∀ bound : Finset String, (∀ key, key ∈ bound ↔ ∃ i, Edit.LatestWrite edits i key) →
          (ofEdits edits).size = bound.card)
      ∧ (ofEdits edits).Coherent
      ∧ (∀ key, (ofEdits edits).contains key = false →
          ((ofEdits edits).erase key).entries = (ofEdits edits).entries)
      ∧ ∀ bindings : List (String × V),
          ofList bindings = ofEdits (bindings.map fun binding => .write binding.1 binding.2) := by
  refine ⟨entries_ofEdits edits, (ofEdits edits).nodup, fun _ _ => get?_ofEdits,
    listedBy_ofEdits edits, fun bound hbound => size_eq_card fun key => ?_, coherent _,
    fun _ => entries_erase_of_unbound, ofList_eq_ofEdits⟩
  rw [hbound, (listedBy_ofEdits edits).mem_iff]

end Biparse.PropertyMap
