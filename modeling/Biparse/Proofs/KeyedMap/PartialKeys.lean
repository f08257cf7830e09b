import Biparse.KeyedMap.Basic
import Biparse.Proofs.Edit
import Biparse.Proofs.Elem.Equality

/-!
# Keyed maps under partial equality

What a keyed map keeps to when the equality of its keys is symmetric and transitive, but some keys
need not equal themselves (`KeyedMap.Sound`). Such a key equals no stored one either, so writing it
appends an entry that is never found again and disturbs nothing. All other keys are written and
removed at the one entry whose key equals them, for a second entry like that would equal the first.

The laws are stated of every map that edits reach from a collected one (`partial_keys_sound`), and
what the edits do is stated on bare entries as well (`editEntries`).
-/

namespace Biparse.KeyedMap

variable {K V : Type} [BEq K] {m m' : KeyedMap K V} {entries : List (K × V)} {key k : K} {value : V}

/-- The map after one edit. Removing a key that is not bound keeps the map. -/
def edit (m : KeyedMap K V) : Edit K V → KeyedMap K V
  | .write key value => m.insert key value
  | .remove key => (m.remove? key).getD m

/-- One edit of bare entries, whether or not their keys are distinct. -/
def editEntries (entries : List (K × V)) : Edit K V → List (K × V)
  | .write key value => write key value entries
  | .remove key => drop key entries

theorem drop_append (h : ∀ entry ∈ entries, (entry.1 == key) = false) (rest : List (K × V)) :
    drop key (entries ++ rest) = entries ++ drop key rest := by
  induction entries with
  | nil => rfl
  | cons entry entries ih =>
      rw [List.forall_mem_cons] at h
      rw [List.cons_append, drop, if_neg (Bool.eq_false_iff.mp h.1), ih h.2, List.cons_append]

theorem drop_eq_self (h : entries.any (fun entry => entry.1 == key) = false) :
    drop key entries = entries := by
  simp only [List.any_eq_false, Bool.not_eq_true] at h
  have hdrop := drop_append h []
  rwa [drop, List.append_nil] at hdrop

theorem entries_edit (m : KeyedMap K V) (e : Edit K V) :
    (m.edit e).entries = editEntries m.entries e := by
  cases e with
  | write key value => rfl
  | remove key =>
      rw [edit, editEntries, remove?]
      by_cases hkey : m.contains key
      · rw [if_pos hkey, Option.getD_some]
      · rw [if_neg hkey, Option.getD_none, drop_eq_self (Bool.eq_false_iff.mpr hkey)]

theorem entries_foldl_edit (m : KeyedMap K V) (edits : List (Edit K V)) :
    (edits.foldl edit m).entries = edits.foldl editEntries m.entries :=
  (List.foldl_hom entries fun m e => (entries_edit m e).symm).symm

theorem eq_of_entries (h : m.entries = m'.entries) : m = m' := by
  obtain ⟨entries, distinct⟩ := m
  cases h
  rfl

/-- Collecting bindings is inserting them one by one. -/
theorem ofList_eq_foldl_insert (bindings : List (K × V)) :
    ofList bindings = bindings.foldl (fun m binding => m.insert binding.1 binding.2) empty := by
  have hentries : (bindings.foldl (fun m binding => m.insert binding.1 binding.2) empty).entries
      = writeAll [] bindings := (List.foldl_hom KeyedMap.entries fun _ _ => rfl).symm
  exact eq_of_entries hentries.symm

/-! ## Views -/

theorem contains_eq_isSome_get? (m : KeyedMap K V) (key : K) :
    m.contains key = (m.get? key).isSome := by
  rw [Bool.eq_iff_iff]
  simp [contains, get?]

theorem keys_insert (m : KeyedMap K V) (key : K) (value : V) :
    (m.insert key value).keys = if m.contains key then m.keys else m.keys ++ [key] :=
  keys_write key value m.entries

theorem size_insert_of_unbound (h : m.contains key = false) :
    (m.insert key value).size = m.size + 1 := by
  have hkeys := congrArg List.length (keys_insert m key value)
  rw [h, if_neg Bool.false_ne_true, List.length_append] at hkeys
  simpa [keys, size] using hkeys

theorem isSome_remove? (m : KeyedMap K V) (key : K) : (m.remove? key).isSome = m.contains key := by
  unfold remove?
  cases m.contains key <;> rfl

theorem entries_of_remove? (h : m.remove? key = some m') : m'.entries = drop key m.entries := by
  unfold remove? at h
  split at h
  · rw [← Option.some.inj h]
  · cases h

theorem length_drop (h : entries.any (fun entry => entry.1 == key) = true) :
    (drop key entries).length + 1 = entries.length := by
  induction entries with
  | nil => cases h
  | cons entry rest ih =>
      obtain ⟨stored, v⟩ := entry
      unfold drop
      split
      · rfl
      · rename_i hstored
        rw [List.any_cons, Bool.eq_false_iff.mpr hstored, Bool.false_or] at h
        rw [List.length_cons, List.length_cons, ih h]

theorem size_of_remove? (h : m.remove? key = some m') : m'.size + 1 = m.size := by
  have hbound : m.contains key = true := by rw [← isSome_remove?, h, Option.isSome_some]
  rw [size, entries_of_remove? h]
  exact length_drop hbound

/-! ## Keys under a partial equivalence -/

section PartialEquiv

variable [PartialEquivBEq K]

theorem distinct_getElem? (m : KeyedMap K V) {i j : Nat} {a b : K × V} (hne : i ≠ j)
    (ha : m.entries[i]? = some a) (hb : m.entries[j]? = some b) : (a.1 == b.1) = false := by
  obtain ⟨hi, rfl⟩ := List.getElem?_eq_some_iff.mp ha
  obtain ⟨hj, rfl⟩ := List.getElem?_eq_some_iff.mp hb
  rcases Nat.lt_or_gt_of_ne hne with hlt | hgt
  · exact List.pairwise_iff_getElem.mp m.distinct i j hi hj hlt
  · rw [BEq.comm]
    exact List.pairwise_iff_getElem.mp m.distinct j i hj hi hgt

/-- The keys that equal the one written find what was written; all others find what they found
before. -/
theorem find?_write (key k : K) (value : V) (entries : List (K × V)) :
    ((write key value entries).find? fun entry => entry.1 == k).map Prod.snd
      = if k == key then some value
        else (entries.find? fun entry => entry.1 == k).map Prod.snd := by
  induction entries with
  | nil =>
      rw [write, List.find?_singleton, BEq.comm (a := key)]
      split <;> rfl
  | cons entry rest ih =>
      obtain ⟨stored, v⟩ := entry
      by_cases hstored : stored == key
      · have hsame : (stored == k) = (k == key) := by rw [BEq.congr_left hstored, BEq.comm]
        rw [write, if_pos hstored, List.find?_cons, List.find?_cons, hsame]
        cases k == key <;> rfl
      · rw [write, if_neg hstored, List.find?_cons, List.find?_cons]
        cases hk : stored == k with
        | false => exact ih
        | true =>
            have hkey : ¬ (k == key) = true := fun hkey => hstored (BEq.trans hk hkey)
            rw [if_neg hkey]

theorem get?_insert (m : KeyedMap K V) (key k : K) (value : V) :
    (m.insert key value).get? k = if k == key then some value else m.get? k :=
  find?_write key k value m.entries

/-- A key that does not equal itself is not found. -/
theorem get?_eq_none_of_not_self (m : KeyedMap K V) (h : (key == key) = false) :
    m.get? key = none := by
  rw [get?, Option.map_eq_none_iff, List.find?_eq_none]
  intro entry _ hentry
  rw [BEq.trans (BEq.symm hentry) hentry] at h
  cases h

/-- Among distinct keys the first entry that goes is the only one. -/
theorem drop_eq_filter (h : entries.Pairwise fun a b => (a.1 == b.1) = false) :
    drop key entries = entries.filter fun entry => !(entry.1 == key) := by
  induction entries with
  | nil => rfl
  | cons entry rest ih =>
      obtain ⟨stored, v⟩ := entry
      rw [List.pairwise_cons] at h
      by_cases hstored : stored == key
      · have hrest : ∀ other ∈ rest, (!(other.1 == key)) = true := by
          intro other hother
          rw [Bool.not_eq_true', ← BEq.congr_right hstored, BEq.comm]
          exact h.1 other hother
        simp [drop, hstored, List.filter_eq_self.mpr hrest]
      · simp [drop, hstored, ih h.2]

theorem find?_drop (h : entries.Pairwise fun a b => (a.1 == b.1) = false) (k : K) :
    ((drop key entries).find? fun entry => entry.1 == k).map Prod.snd
      = if k == key then none
        else (entries.find? fun entry => entry.1 == k).map Prod.snd := by
  rw [drop_eq_filter h, List.find?_filter]
  split
  · rename_i hk
    rw [Option.map_eq_none_iff, List.find?_eq_none]
    intro entry _
    simp [BEq.congr_right hk]
  · rename_i hk
    congr 2
    funext entry
    cases hentry : entry.1 == k with
    | false => simp
    | true =>
        have hkey : (entry.1 == key) = false := by
          rw [BEq.congr_left hentry]
          exact Bool.eq_false_iff.mpr hk
        simp [hkey]

theorem get?_of_remove? (h : m.remove? key = some m') (k : K) :
    m'.get? k = if k == key then none else m.get? k := by
  rw [get?, entries_of_remove? h, find?_drop m.distinct]
  rfl

/-- What a map keeps to whose keys need not equal themselves. -/
structure Sound (m : KeyedMap K V) : Prop where
  distinct : ∀ (i j : Nat) (a b : K × V), i ≠ j → m.entries[i]? = some a → m.entries[j]? = some b →
    (a.1 == b.1) = false
  keys_insert : ∀ key value,
    (m.insert key value).keys = if m.contains key then m.keys else m.keys ++ [key]
  get?_insert_self : ∀ key value, (m.insert key value).get? key = some value ↔ (key == key) = true
  insert_not_self : ∀ key value, (key == key) = false →
    (m.insert key value).get? key = none ∧ (m.insert key value).size = m.size + 1
  get?_insert_other : ∀ key value k, (k == key) = false →
    (m.insert key value).get? k = m.get? k
  isSome_remove? : ∀ key, (m.remove? key).isSome = m.contains key
  remove?_self : ∀ key m', m.remove? key = some m' →
    m'.contains key = false ∧ m'.size + 1 = m.size
      ∧ m'.entries = m.entries.filter fun entry => !(entry.1 == key)
  get?_remove?_other : ∀ key m' k, m.remove? key = some m' → (k == key) = false →
    m'.get? k = m.get? k

theorem sound (m : KeyedMap K V) : m.Sound where
  distinct _ _ _ _ := distinct_getElem? m
  keys_insert := keys_insert m
  get?_insert_self key value := by
    rw [get?_insert]
    split
    · rename_i hkey
      simp [hkey]
    · rename_i hkey
      simp [get?_eq_none_of_not_self m (Bool.eq_false_iff.mpr hkey), hkey]
  insert_not_self key value hkey := by
    have hnone := get?_eq_none_of_not_self m hkey
    have hunbound : m.contains key = false := by rw [contains_eq_isSome_get?, hnone]; rfl
    rw [get?_insert, hkey, if_neg Bool.false_ne_true]
    exact ⟨hnone, size_insert_of_unbound hunbound⟩
  get?_insert_other key value k hk := by rw [get?_insert, hk, if_neg Bool.false_ne_true]
  isSome_remove? := isSome_remove? m
  remove?_self key m' h := by
    refine ⟨?_, size_of_remove? h, by rw [entries_of_remove? h, drop_eq_filter m.distinct]⟩
    rw [contains_eq_isSome_get?, get?_of_remove? h]
    split
    · rfl
    · rename_i hkey
      rw [get?_eq_none_of_not_self m (Bool.eq_false_iff.mpr hkey)]
      rfl
  get?_remove?_other key m' k h hk := by rw [get?_of_remove? h, hk, if_neg Bool.false_ne_true]

/-- A map that any edits make of a collected one keeps to the laws of partial keys, and collecting
is inserting one by one. -/
theorem partial_keys_sound (bindings : List (K × V)) (edits : List (Edit K V)) :
    (edits.foldl edit (ofList bindings)).entries
        = edits.foldl editEntries (writeAll [] bindings)
      ∧ (edits.foldl edit (ofList bindings)).Sound
      ∧ ofList bindings
        = bindings.foldl (fun m binding => m.insert binding.1 binding.2) empty :=
  ⟨entries_foldl_edit _ edits, sound _, ofList_eq_foldl_insert bindings⟩

/-- The negative zero is written over the positive one, whose spelling stays; a list around a
not-a-number is appended each time, and removing it does nothing. -/
theorem partial_keys_sound_elements :
    ∃ m : KeyedMap Elem Elem,
      m = [Edit.write (.list [.float .nan]) .unit, .remove (.list [.float .nan])].foldl edit
          (ofList [(.float (.finite false 0), .int 1)])
        ∧ (m.insert (.float (.finite true 0)) (.int 2)).keys
          = [.float (.finite false 0), .list [.float .nan]]
        ∧ (m.insert (.float (.finite true 0)) (.int 2)).get? (.float (.finite true 0))
          = some (.int 2)
        ∧ (m.insert (.list [.float .nan]) (.int 3)).get? (.list [.float .nan]) = none
        ∧ (m.insert (.list [.float .nan]) (.int 3)).size = 3 := by
  obtain ⟨-, hsound, -⟩ := partial_keys_sound (K := Elem) (V := Elem)
    [(.float (.finite false 0), .int 1)]
    [.write (.list [.float .nan]) .unit, .remove (.list [.float .nan])]
  refine ⟨_, rfl, ?_, ?_, ?_⟩
  · rw [hsound.keys_insert]
    rfl
  · exact (hsound.get?_insert_self _ _).mpr (by decide)
  · exact hsound.insert_not_self (.list [.float .nan]) (.int 3) (by decide)

end PartialEquiv

end Biparse.KeyedMap
