import Biparse.Proofs.PropertyMap.Edits
import Biparse.Proofs.Unwinding
import Biparse.PropertyMap.Component

/-!
# Puts are taken back by the last write

A put overwrites what its name was bound to and moves the name to the end, so taking it back brings
back neither a value that was overwritten nor the place of the name (`PutLaws`). What it takes off
is the one binding of its name (`exists_split`), for no name is bound twice.

So each put that is taken back makes the map smaller by one binding, whichever put it is, and puts
that cover the names of a map take it apart down to nothing in any order (`puts_taken_back`).
-/

namespace Biparse.PropertyMap

variable {V : Type} {m rest : PropertyMap V} {key : String} {v w : V} {keys : List String}
  {taken : List V} {before after : List (String × V)}

theorem eq_of_entries {m m' : PropertyMap V} (h : m.entries = m'.entries) : m = m' := by
  obtain ⟨entries, nodup⟩ := m
  cases h
  rfl

theorem get?_eq_none_iff : m.get? key = none ↔ key ∉ m.keys := by
  rw [mem_keys_iff, ← Option.ne_none_iff_exists', ne_eq, not_not]

/-! ## The bindings of one name -/

theorem without_concat (key : String) (entries : List (String × V)) (v : V) :
    without key (without key entries ++ [(key, v)]) = without key entries := by
  simp [without]

theorem erase_eq_self_iff : m.erase key = m ↔ key ∉ m.keys := by
  refine Iff.trans ⟨fun h => ?_, fun h => eq_of_entries ?_⟩ without_eq_self_iff
  · rw [← entries_erase, h]
  · rw [entries_erase, h]

theorem insert_insert (m : PropertyMap V) (key : String) (v w : V) :
    (m.insert key v).insert key w = m.insert key w := by
  apply eq_of_entries
  rw [entries_insert, entries_insert, without_concat, entries_insert]

theorem erase_insert (m : PropertyMap V) (key : String) (v : V) :
    (m.insert key v).erase key = m.erase key := by
  apply eq_of_entries
  rw [entries_erase, entries_insert, without_concat, entries_erase]

/-- A name is bound once, so erasing it takes out the binding that is there and leaves the others
where they are. -/
theorem entries_erase_of_split (h : m.entries = before ++ (key, v) :: after) :
    (m.erase key).entries = before ++ after := by
  have hnodup := m.nodup
  rw [h, List.map_append, List.map_cons, List.nodup_middle, List.nodup_cons,
    ← List.map_append] at hnodup
  rw [← without_eq_self_iff.mpr hnodup.1, entries_erase, h]
  simp [without]

theorem exists_split (h : m.get? key = some v) :
    ∃ before after, m.entries = before ++ (key, v) :: after :=
  List.append_of_mem (get?_eq_some_iff_mem.mp h)

theorem size_erase_of_bound (h : m.get? key = some v) : (m.erase key).size + 1 = m.size := by
  obtain ⟨before, after, hentries⟩ := exists_split h
  rw [size, size, entries_erase_of_split hentries, hentries]
  simp only [List.length_append, List.length_cons]
  omega

/-- Writing a binding again after erasing it moves it to the end. -/
theorem entries_insert_erase (m : PropertyMap V) (key : String) (v : V) :
    ((m.erase key).insert key v).entries = (m.erase key).entries ++ [(key, v)] := by
  rw [entries_insert, entries_erase, without_eq_self_iff.mpr (not_mem_keys_without key m.entries)]

theorem insert_erase_eq_self_iff (h : m.get? key = some v) :
    (m.erase key).insert key v = m ↔ m.keys.getLast? = some key := by
  constructor
  · intro hsame
    have hkeys := congrArg keys hsame
    rw [keys_insert] at hkeys
    rw [← hkeys, List.getLast?_concat]
  · intro hlast
    rw [keys, List.getLast?_map] at hlast
    obtain ⟨⟨k, u⟩, hentry, rfl⟩ := Option.map_eq_some_iff.mp hlast
    obtain ⟨before, hentries⟩ := List.getLast?_eq_some_iff.mp hentry
    have hvalue : m.get? k = some u := get?_eq_some_iff_mem.mpr (by simp [hentries])
    obtain rfl := Option.some.inj (hvalue.symm.trans h)
    apply eq_of_entries
    rw [entries_insert_erase, entries_erase_of_split hentries, List.append_nil, hentries]

/-! ## One put -/

theorem takenBack_putFold_iff :
    (putFold V key).TakenBack m v rest ↔ m.get? key = some v ∧ m.erase key = rest := by
  rw [Fold.TakenBack, putFold, Option.some.injEq, and_comm]

/-- What a put, and taking it back, does to a map. -/
structure PutLaws (key : String) (m : PropertyMap V) : Prop where
  rightInverse_forward : ∀ context v,
    (putFold V key).rightInverse ((putFold V key).forward context m v) = some v
  leftInverse_forward : ∀ context v, ∃ rest,
    (putFold V key).leftInverse ((putFold V key).forward context m v) = some rest
      ∧ rest.entries = m.entries.filter (fun entry => entry.1 != key)
      ∧ (rest.entries = m.entries ↔ key ∉ m.keys)
  forward_forward : ∀ context context' v w,
    (putFold V key).forward context' ((putFold V key).forward context m v) w
      = (putFold V key).forward context' m w
  rightInverse_none : (putFold V key).rightInverse m = none ↔ key ∉ m.keys
  leftInverse_unbound : key ∉ m.keys → (putFold V key).leftInverse m = some m
  bound : ∀ v, (key, v) ∈ m.entries → (putFold V key).rightInverse m = some v
    ∧ ∃ before after rest, m.entries = before ++ (key, v) :: after
      ∧ (putFold V key).leftInverse m = some rest ∧ rest.entries = before ++ after
      ∧ ∀ context, ((putFold V key).forward context rest v).entries = before ++ after ++ [(key, v)]
        ∧ ((putFold V key).forward context rest v = m ↔ m.keys.getLast? = some key)
  last_iff : ∀ edits, ofEdits edits = m →
    (m.keys.getLast? = some key ↔ Edit.MostRecent edits key)

theorem putLaws (key : String) (m : PropertyMap V) : PutLaws key m where
  rightInverse_forward context v := by simp [putFold, get?_insert]
  leftInverse_forward context v := by
    refine ⟨m.erase key, congrArg some (erase_insert m key v), entries_erase m key, ?_⟩
    rw [entries_erase, without_eq_self_iff, keys]
  forward_forward context context' v w := insert_insert m key v w
  rightInverse_none := get?_eq_none_iff
  leftInverse_unbound h := congrArg some (erase_eq_self_iff.mpr h)
  bound v h := by
    have hvalue := get?_eq_some_iff_mem.mpr h
    obtain ⟨before, after, hentries⟩ := exists_split hvalue
    have herase := entries_erase_of_split hentries
    refine ⟨hvalue, before, after, m.erase key, hentries, rfl, herase, fun context =>
      ⟨?_, insert_erase_eq_self_iff hvalue⟩⟩
    rw [← herase]
    exact entries_insert_erase m key v
  last_iff := by
    rintro edits rfl
    exact (listedBy_ofEdits edits).getLast?_eq_some_iff fun _ _ _ hi hj => hi.le hj

/-! ## All puts -/

theorem shrink_putFold (keys : List String) : Fold.Shrink size (keys.map (putFold V)) := by
  intro fold hfold m v rest hback
  obtain ⟨key, -, rfl⟩ := List.mem_map.mp hfold
  obtain ⟨hvalue, rfl⟩ := takenBack_putFold_iff.mp hback
  exact size_erase_of_bound hvalue

/-- Taking puts back binds no new names. -/
theorem keys_subset_of_unwound (h : Fold.Unwound (keys.map (putFold V)) m taken rest) :
    rest.keys ⊆ m.keys := by
  induction h with
  | stop m => exact List.Subset.refl _
  | step hfold hback _ ih =>
      obtain ⟨key, -, rfl⟩ := List.mem_map.mp hfold
      obtain ⟨-, rfl⟩ := takenBack_putFold_iff.mp hback
      rw [keys_erase] at ih
      exact fun k hk => List.mem_of_mem_filter (ih hk)

/-- Puts of these names refuse a map when it binds none of them. -/
theorem exhausted_putFold_iff :
    Fold.Exhausted (keys.map (putFold V)) m ↔ ∀ key ∈ keys, key ∉ m.keys := by
  simp only [Fold.Exhausted, List.forall_mem_map, takenBack_putFold_iff, ← get?_eq_none_iff]
  refine forall₂_congr fun key _ => ?_
  cases m.get? key <;> simp

theorem keys_eq_nil_iff : m.keys = [] ↔ m = empty := by
  rw [keys, List.map_eq_nil_iff]
  exact ⟨fun h => eq_of_entries h, fun h => h ▸ rfl⟩

/-- Puts that cover a map refuse what is left of it when nothing is. -/
theorem exhausted_iff_eq_empty (hcover : ∀ key ∈ m.keys, key ∈ keys)
    (h : Fold.Unwound (keys.map (putFold V)) m taken rest) :
    Fold.Exhausted (keys.map (putFold V)) rest ↔ rest = empty := by
  rw [exhausted_putFold_iff, ← keys_eq_nil_iff, List.eq_nil_iff_forall_not_mem]
  constructor
  · exact fun hend key hkey => hend key (hcover key (keys_subset_of_unwound h hkey)) hkey
  · exact fun hnone key _ => hnone key

/-- Taking a put back undoes it up to what it has overwritten. Puts whose names cover a map are
taken back from it one after another, whichever is chosen each time, until nothing is left and
not before then, and that takes as many steps as there are bindings. -/
theorem puts_taken_back {V : Type} (m : PropertyMap V) :
    (∀ key, PutLaws key m)
      ∧ ∀ keys : List String, (∀ key ∈ m.keys, key ∈ keys) →
        (∀ taken rest, Fold.Unwound (keys.map (putFold V)) m taken rest →
          taken.length + rest.size = m.size
            ∧ (Fold.Exhausted (keys.map (putFold V)) rest ↔ rest = empty))
        ∧ (∀ taken rest, Fold.Unwinds (keys.map (putFold V)) m taken rest →
          rest = empty ∧ taken.length = m.size)
        ∧ ∃ taken, Fold.Unwinds (keys.map (putFold V)) m taken empty := by
  refine ⟨fun key => putLaws key m, fun keys hcover => ?_⟩
  have hrun : ∀ taken rest, Fold.Unwound (keys.map (putFold V)) m taken rest →
      taken.length + rest.size = m.size
        ∧ (Fold.Exhausted (keys.map (putFold V)) rest ↔ rest = empty) := fun _ _ hrun =>
    ⟨hrun.length_add_size (shrink_putFold keys), exhausted_iff_eq_empty hcover hrun⟩
  have hend : ∀ taken rest, Fold.Unwinds (keys.map (putFold V)) m taken rest →
      rest = empty ∧ taken.length = m.size := by
    rintro taken rest ⟨hunwound, hexhausted⟩
    obtain ⟨hsize, hempty⟩ := hrun taken rest hunwound
    obtain rfl := hempty.mp hexhausted
    exact ⟨rfl, hsize⟩
  obtain ⟨taken, rest, hunwinds⟩ := Fold.exists_unwinds (shrink_putFold keys) m
  obtain ⟨rfl, -⟩ := hend taken rest hunwinds
  exact ⟨hrun, hend, taken, hunwinds⟩

/-- A value that a put has overwritten is gone with the put; one more put, of a name the map does
not bind, has no part in taking the map apart. -/
theorem puts_taken_back_two :
    ∃ m : PropertyMap Nat, m = ofList [("a", 1), ("b", 2)]
      ∧ (∃ rest, (putFold Nat "a").leftInverse ((putFold Nat "a").forward ⟨0, 0⟩ m 3) = some rest
        ∧ rest.entries = [("b", 2)])
      ∧ ∀ taken rest, Fold.Unwinds (["c", "a", "b", "a"].map (putFold Nat)) m taken rest →
          rest = empty ∧ taken.length = 2 := by
  obtain ⟨hlaws, hcovered⟩ := puts_taken_back (ofList [("a", 1), ("b", 2)])
  obtain ⟨-, hunwinds, -⟩ := hcovered ["c", "a", "b", "a"] (by decide)
  obtain ⟨rest, hback, hentries, -⟩ := (hlaws "a").leftInverse_forward ⟨0, 0⟩ 3
  exact ⟨_, rfl, ⟨rest, hback, hentries⟩, hunwinds⟩

end Biparse.PropertyMap
