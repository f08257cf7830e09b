/-!
# Maps with sorted text keys

A finite map whose entries stand in strictly increasing key order. Texts compare by their code
points, which is also the order of their UTF-8 bytes. Writing a key that is already there replaces
its value, so each key occurs once and two maps with the same bindings are the same map.
-/

namespace Biparse

/-- Entries whose keys strictly increase. -/
structure SortedMap (α : Type) where
  entries : List (String × α)
  sorted : (entries.map Prod.fst).Pairwise (· < ·)

namespace SortedMap

variable {α : Type}

/-- Puts a binding in its place among sorted entries, over an older one of the same key. -/
def place (key : String) (value : α) : List (String × α) → List (String × α)
  | [] => [(key, value)]
  | (k, v) :: rest =>
    if key < k then (key, value) :: (k, v) :: rest
    else if key = k then (key, value) :: rest
    else (k, v) :: place key value rest

theorem mem_keys_place {key k : String} {value : α} {entries : List (String × α)} :
    k ∈ (place key value entries).map Prod.fst ↔ k = key ∨ k ∈ entries.map Prod.fst := by
  induction entries with
  | nil => simp [place]
  | cons entry rest ih =>
    obtain ⟨k', v'⟩ := entry
    unfold place
    split
    · simp
    · split
      · simp_all
      · simp only [List.map_cons, List.mem_cons, ih]
        grind

theorem sorted_place {key : String} {value : α} {entries : List (String × α)}
    (h : (entries.map Prod.fst).Pairwise (· < ·)) :
    ((place key value entries).map Prod.fst).Pairwise (· < ·) := by
  induction entries with
  | nil => simp [place]
  | cons entry rest ih =>
    obtain ⟨k, v⟩ := entry
    simp only [List.map_cons, List.pairwise_cons] at h
    unfold place
    split
    · rename_i hlt
      simp only [List.map_cons, List.pairwise_cons, List.mem_cons]
      refine ⟨?_, h.1, h.2⟩
      rintro a (rfl | ha)
      · exact hlt
      · exact String.lt_trans hlt (h.1 a ha)
    · split
      · rename_i heq
        subst heq
        simpa using h
      · rename_i hlt hne
        simp only [List.map_cons, List.pairwise_cons]
        refine ⟨?_, ih h.2⟩
        intro a ha
        rcases mem_keys_place.1 ha with rfl | ha
        · rcases String.le_total a k with hle | hle
          · exact absurd (Std.lt_of_le_of_ne hle hne) hlt
          · exact Std.lt_of_le_of_ne hle (Ne.symm hne)
        · exact h.1 a ha

/-- A key beyond all others is placed at the end. -/
theorem place_of_forall_lt {key : String} {value : α} {entries : List (String × α)}
    (h : ∀ k ∈ entries.map Prod.fst, k < key) :
    place key value entries = entries ++ [(key, value)] := by
  induction entries with
  | nil => rfl
  | cons entry rest ih =>
    obtain ⟨k, v⟩ := entry
    have hlt : k < key := h k List.mem_cons_self
    have hne : key ≠ k := fun heq => String.lt_irrefl k (heq ▸ hlt)
    rw [place, if_neg (String.lt_asymm hlt), if_neg hne,
      ih fun k hk => h k (List.mem_cons_of_mem _ hk)]
    rfl

/-- The map without bindings. -/
def empty : SortedMap α := ⟨[], List.Pairwise.nil⟩

instance : Inhabited (SortedMap α) := ⟨empty⟩

instance [DecidableEq α] : DecidableEq (SortedMap α) := fun a b =>
  decidable_of_iff (a.entries = b.entries)
    ⟨fun h => by cases a; cases b; simp_all, fun h => h ▸ rfl⟩

/-- The map with `key` bound to `value`, whatever it was bound to before. -/
def insert (m : SortedMap α) (key : String) (value : α) : SortedMap α :=
  ⟨place key value m.entries, sorted_place m.sorted⟩

/-- The value bound to a key. -/
def get? (m : SortedMap α) (key : String) : Option α := m.entries.lookup key

/-- The keys, in increasing order. -/
def keys (m : SortedMap α) : List String := m.entries.map Prod.fst

/-- The bindings whose key passes a test. -/
def filterKeys (m : SortedMap α) (keep : String → Bool) : SortedMap α :=
  ⟨m.entries.filter fun entry => keep entry.1,
    m.sorted.sublist (List.Sublist.map _ List.filter_sublist)⟩

/-- Whether a key is bound. -/
def contains (m : SortedMap α) (key : String) : Bool := m.entries.any fun entry => entry.1 == key

/-- The bindings of a list written one after another, so the last one of each key counts. -/
def ofList (bindings : List (String × α)) : SortedMap α :=
  bindings.foldl (fun m entry => m.insert entry.1 entry.2) empty

theorem entries_foldl_insert {m : SortedMap α} {bindings : List (String × α)}
    (h : ((m.entries ++ bindings).map Prod.fst).Pairwise (· < ·)) :
    (bindings.foldl (fun m entry => m.insert entry.1 entry.2) m).entries
      = m.entries ++ bindings := by
  induction bindings generalizing m with
  | nil => simp
  | cons entry rest ih =>
    have hentries : (m.insert entry.1 entry.2).entries = m.entries ++ [entry] := by
      refine place_of_forall_lt fun k hk => ?_
      rw [List.map_append, List.pairwise_append] at h
      exact h.2.2 k hk entry.1 List.mem_cons_self
    rw [List.foldl_cons, ih (by rwa [hentries, List.append_assoc]), hentries, List.append_assoc]
    rfl

theorem eq_of_entries {m m' : SortedMap α} (h : m.entries = m'.entries) : m = m' := by
  obtain ⟨entries, sorted⟩ := m
  obtain ⟨entries', sorted'⟩ := m'
  obtain rfl : entries = entries' := h
  rfl

/-- A map is what its entries make when they are written one after another. -/
theorem ofList_entries (m : SortedMap α) : ofList m.entries = m :=
  eq_of_entries (entries_foldl_insert m.sorted)

theorem contains_eq_isSome_get? (m : SortedMap α) (key : String) :
    m.contains key = (m.get? key).isSome := by
  rw [Bool.eq_iff_iff, get?, List.lookup_isSome_iff, contains, List.any_eq_true]
  exact exists_congr fun entry => and_congr_right fun _ => by rw [BEq.comm]

theorem lookup_place (key k : String) (value : α) (entries : List (String × α)) :
    (place key value entries).lookup k = if k = key then some value else entries.lookup k := by
  induction entries with
  | nil =>
    by_cases h : k = key
    · simp [place, h]
    · simp [place, h, List.lookup_cons, beq_false_of_ne h]
  | cons entry rest ih =>
    obtain ⟨k', v'⟩ := entry
    unfold place
    by_cases h : k = key
    · subst h
      split
      · simp
      · split
        · simp
        · rename_i hne
          rw [List.lookup_cons, beq_false_of_ne hne]
          simpa using ih
    · split
      · simp [List.lookup_cons, beq_false_of_ne h]
      · split
        · rename_i heq
          subst heq
          simp [List.lookup_cons, beq_false_of_ne h]
        · rw [List.lookup_cons, List.lookup_cons, ih]
          simp [h]

theorem get?_insert (m : SortedMap α) (key k : String) (value : α) :
    (m.insert key value).get? k = if k = key then some value else m.get? k :=
  lookup_place key k value m.entries

theorem get?_filterKeys (m : SortedMap α) (keep : String → Bool) (k : String) :
    (m.filterKeys keep).get? k = if keep k then m.get? k else none := by
  change (m.entries.filter fun entry => keep entry.1).lookup k
    = if keep k then m.entries.lookup k else none
  induction m.entries with
  | nil => simp
  | cons entry rest ih =>
    obtain ⟨k', v⟩ := entry
    by_cases hk : k = k'
    · subst hk
      by_cases hkeep : keep k
      · simp [hkeep]
      · simp only [hkeep, Bool.false_eq_true, not_false_eq_true, List.filter_cons_of_neg, if_false]
          at ih ⊢
        exact ih
    · by_cases hkeep : keep k'
      · simp only [hkeep, List.filter_cons_of_pos, List.lookup_cons, beq_false_of_ne hk]
        exact ih
      · simp only [hkeep, Bool.false_eq_true, not_false_eq_true, List.filter_cons_of_neg,
          List.lookup_cons, beq_false_of_ne hk]
        exact ih

/-! ## Bindings of different keys -/

theorem lookup_eq_none {bindings : List (String × α)} {k : String}
    (h : k ∉ bindings.map Prod.fst) : bindings.lookup k = none :=
  List.lookup_eq_none_iff.mpr fun _ hmem =>
    bne_iff_ne.mpr fun hk => h (hk ▸ List.mem_map_of_mem (f := Prod.fst) hmem)

theorem get?_foldl_insert {bindings : List (String × α)} (h : (bindings.map Prod.fst).Nodup)
    (m : SortedMap α) (k : String) :
    (bindings.foldl (fun m entry => m.insert entry.1 entry.2) m).get? k
      = (bindings.lookup k).or (m.get? k) := by
  induction bindings generalizing m with
  | nil => rfl
  | cons entry rest ih =>
    obtain ⟨key, value⟩ := entry
    rw [List.map_cons, List.nodup_cons] at h
    rw [List.foldl_cons, ih h.2, get?_insert, List.lookup_cons]
    by_cases hk : k = key
    · subst hk
      simp [lookup_eq_none h.1]
    · rw [if_neg hk, beq_false_of_ne hk]

theorem get?_ofList {bindings : List (String × α)} (h : (bindings.map Prod.fst).Nodup)
    (k : String) : (ofList bindings).get? k = bindings.lookup k := by
  rw [ofList, get?_foldl_insert h]
  exact Option.or_none

theorem eq_of_lookup {bindings bindings' : List (String × α)}
    (hkeys : bindings.map Prod.fst = bindings'.map Prod.fst) (h : (bindings.map Prod.fst).Nodup)
    (hlookup : ∀ k, bindings.lookup k = bindings'.lookup k) : bindings = bindings' := by
  induction bindings generalizing bindings' with
  | nil => exact (List.map_eq_nil_iff.mp hkeys.symm).symm
  | cons entry rest ih =>
    obtain ⟨key, value⟩ := entry
    cases bindings' with
    | nil => exact nomatch hkeys
    | cons entry' rest' =>
      obtain ⟨key', value'⟩ := entry'
      obtain ⟨rfl, hrest⟩ := List.cons.inj hkeys
      rw [List.map_cons, List.nodup_cons] at h
      have hvalue : some value = some value' := by
        simpa using hlookup key
      obtain rfl := Option.some.inj hvalue
      refine congrArg _ (ih hrest h.2 fun k => ?_)
      by_cases hk : k = key
      · subst hk
        rw [lookup_eq_none h.1, lookup_eq_none (hrest ▸ h.1)]
      · have hlater := hlookup k
        rwa [List.lookup_cons, List.lookup_cons, beq_false_of_ne hk] at hlater

/-- When it is known in what order which keys were written, what was written can be read off. -/
theorem ofList_inj {bindings bindings' : List (String × α)}
    (hkeys : bindings.map Prod.fst = bindings'.map Prod.fst) (h : (bindings.map Prod.fst).Nodup) :
    ofList bindings = ofList bindings' ↔ bindings = bindings' := by
  refine ⟨fun heq => eq_of_lookup hkeys h fun k => ?_, congrArg ofList⟩
  rw [← get?_ofList h, ← get?_ofList (hkeys ▸ h), heq]

end SortedMap

end Biparse
