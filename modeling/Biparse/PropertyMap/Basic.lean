import Biparse.Text.Outline

/-!
# Property maps

A persistent map from property names to values, in the order of the most recent writes: writing a
name moves it to the end. `PropertyMap` carries the proof that no name stands in it twice.
-/

namespace Biparse

/-- Bindings of distinct names, the latest write last. -/
structure PropertyMap (V : Type) where
  entries : List (String × V)
  nodup : (entries.map Prod.fst).Nodup

namespace PropertyMap

variable {V : Type}

/-- The bindings of all other names. -/
def without (key : String) (entries : List (String × V)) : List (String × V) :=
  entries.filter fun entry => entry.1 != key

theorem not_mem_keys_without (key : String) (entries : List (String × V)) :
    key ∉ (without key entries).map Prod.fst := by
  simp [without]

theorem nodup_without {key : String} {entries : List (String × V)}
    (h : (entries.map Prod.fst).Nodup) : ((without key entries).map Prod.fst).Nodup :=
  List.Nodup.sublist (List.Sublist.map _ List.filter_sublist) h

/-- The map without bindings. -/
def empty : PropertyMap V := ⟨[], List.nodup_nil⟩

instance : Inhabited (PropertyMap V) := ⟨empty⟩

/-- Number of bindings. -/
def size (m : PropertyMap V) : Nat := m.entries.length

/-- Whether there are no bindings. -/
def isEmpty (m : PropertyMap V) : Bool := m.entries.isEmpty

/-- The value bound to a name. -/
def get? (m : PropertyMap V) (key : String) : Option V := m.entries.lookup key

/-- Whether a name is bound. -/
def contains (m : PropertyMap V) (key : String) : Bool := m.entries.any fun entry => entry.1 == key

/-- The names, the latest write last. -/
def keys (m : PropertyMap V) : List String := m.entries.map Prod.fst

/-- The map with `key` bound to `value` by the latest write. -/
def insert (m : PropertyMap V) (key : String) (value : V) : PropertyMap V where
  entries := without key m.entries ++ [(key, value)]
  nodup := by
    rw [List.map_append, List.nodup_append]
    refine ⟨nodup_without m.nodup, by simp, ?_⟩
    intro a ha b hb hab
    simp only [List.map_cons, List.map_nil, List.mem_singleton] at hb
    subst hb
    subst hab
    exact not_mem_keys_without a m.entries ha

/-- The map without the first binding of `key`, which is the only one. -/
def erase (m : PropertyMap V) (key : String) : PropertyMap V where
  entries := m.entries.eraseP fun entry => entry.1 == key
  nodup := m.nodup.sublist (List.eraseP_sublist.map _)

/-- The bindings of a list written one after another. -/
def ofList (bindings : List (String × V)) : PropertyMap V :=
  bindings.foldl (fun m entry => m.insert entry.1 entry.2) empty

/-- Same names in the same order with equal values. -/
def same [BEq V] (m n : PropertyMap V) : Bool := m.entries == n.entries

instance [BEq V] : BEq (PropertyMap V) := ⟨same⟩

/-- How a map is shown, given how its values are. -/
def outline [Glyphs] (value : V → Outline) (m : PropertyMap V) : Outline :=
  .dict (m.entries.map fun entry => (.leaf (Quoted.encode entry.1), value entry.2))

@[simp] theorem entries_empty : (empty : PropertyMap V).entries = [] := rfl

@[simp] theorem entries_insert (m : PropertyMap V) (key : String) (value : V) :
    (m.insert key value).entries = without key m.entries ++ [(key, value)] := rfl

/-- Among distinct names the first binding of a name is all there is of it. -/
theorem eraseP_eq_without {key : String} {entries : List (String × V)}
    (h : (entries.map Prod.fst).Nodup) :
    entries.eraseP (fun entry => entry.1 == key) = without key entries := by
  induction entries with
  | nil => rfl
  | cons entry rest ih =>
    rw [List.map_cons, List.nodup_cons] at h
    by_cases hkey : entry.1 = key
    · have hrest : ∀ other ∈ rest, (other.1 != key) = true := by
        intro other hother
        rw [bne_iff_ne, ← hkey]
        intro heq
        exact h.1 (heq ▸ List.mem_map_of_mem hother)
      simp [without, hkey, List.filter_eq_self.mpr hrest]
    · simpa [without, List.eraseP_cons, List.filter_cons, hkey, beq_false_of_ne hkey] using ih h.2

@[simp] theorem entries_erase (m : PropertyMap V) (key : String) :
    (m.erase key).entries = without key m.entries := eraseP_eq_without m.nodup

theorem lookup_without (key k : String) (entries : List (String × V)) :
    (without key entries).lookup k = if k = key then none else entries.lookup k := by
  induction entries with
  | nil => simp [without]
  | cons entry rest ih =>
    obtain ⟨k', v⟩ := entry
    unfold without at ih ⊢
    by_cases h : k' = key
    · subst h
      simp only [List.filter_cons, bne_self_eq_false, Bool.false_eq_true, if_false, ih,
        List.lookup_cons]
      by_cases hk : k = k'
      · simp [hk]
      · simp [hk, beq_false_of_ne hk]
    · simp only [List.filter_cons, bne_iff_ne, ne_eq, h, not_false_eq_true, if_true,
        List.lookup_cons, ih]
      by_cases hk : k = k'
      · subst hk
        simp [h]
      · simp [beq_false_of_ne hk]

theorem get?_erase (m : PropertyMap V) (key k : String) :
    (m.erase key).get? k = if k = key then none else m.get? k := by
  rw [get?, entries_erase, lookup_without]
  rfl

theorem get?_insert (m : PropertyMap V) (key k : String) (value : V) :
    (m.insert key value).get? k = if k = key then some value else m.get? k := by
  simp only [get?, entries_insert, List.lookup_append, lookup_without]
  by_cases h : k = key
  · simp [h]
  · simp [h, List.lookup_cons, beq_false_of_ne h]

end PropertyMap

end Biparse
