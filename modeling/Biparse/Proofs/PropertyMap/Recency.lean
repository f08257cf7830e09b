import Biparse.PropertyMap.Basic
import Mathlib.Data.List.Dedup
import Mathlib.Data.List.Induction

/-!
# Property maps in order of the latest writes

Looking up a name and listing the names, for maps given by their entries and for maps that a list
of writes makes. Writing one binding after another leaves the last write under each name, in the
order of these writes (`entries_ofList`). So the names end up in the order of their last occurrences
(`keys_ofList`), and whatever goes through a map in its order meets the writes in the order of their
places in the history (`findSome?_lastWrites`).
-/

namespace Biparse

/-- Last occurrences of what passes a test are last occurrences in the whole list. -/
theorem dedup_filter {α : Type} [DecidableEq α] (p : α → Bool) (l : List α) :
    (l.filter p).dedup = l.dedup.filter p := by
  induction l with
  | nil => rfl
  | cons x rest ih =>
      by_cases hx : x ∈ rest <;> by_cases hp : p x = true <;>
        simp [hx, hp, ih]

theorem mem_of_lookup_eq_some {V : Type} {entries : List (String × V)} {key : String} {value : V}
    (h : entries.lookup key = some value) : (key, value) ∈ entries := by
  obtain ⟨before, after, rfl, -⟩ := List.lookup_eq_some_iff.mp h
  exact List.mem_append_right before (List.mem_cons_self ..)

/-- Among distinct names each entry is the one that is found. -/
theorem lookup_eq_some_iff_mem {V : Type} {entries : List (String × V)}
    (hnodup : (entries.map Prod.fst).Nodup) {key : String} {value : V} :
    entries.lookup key = some value ↔ (key, value) ∈ entries := by
  refine ⟨mem_of_lookup_eq_some, fun h => ?_⟩
  obtain ⟨before, after, rfl⟩ := List.append_of_mem h
  rw [List.map_append, List.map_cons, List.nodup_append] at hnodup
  refine List.lookup_eq_some_iff.mpr ⟨before, after, rfl, fun entry hentry => ?_⟩
  have hne := hnodup.2.2 entry.1 (List.mem_map_of_mem hentry) key (List.mem_cons_self ..)
  exact bne_iff_ne.mpr (Ne.symm hne)

namespace PropertyMap

variable {V : Type}

/-! ## Names and values -/

theorem get?_eq_some_iff_mem {m : PropertyMap V} {key : String} {value : V} :
    m.get? key = some value ↔ (key, value) ∈ m.entries :=
  lookup_eq_some_iff_mem m.nodup

theorem mem_keys_iff {m : PropertyMap V} {key : String} :
    key ∈ m.keys ↔ ∃ value, m.get? key = some value := by
  simp only [get?_eq_some_iff_mem, keys, List.mem_map, Prod.exists, exists_and_right,
    exists_eq_right]

theorem contains_iff {m : PropertyMap V} {key : String} :
    m.contains key = true ↔ ∃ value, m.get? key = some value := by
  simp only [get?_eq_some_iff_mem, contains, List.any_eq_true, beq_iff_eq, Prod.exists,
    exists_and_right, exists_eq_right]

theorem isEmpty_iff {m : PropertyMap V} : m.isEmpty = true ↔ ∀ key, m.get? key = none := by
  unfold isEmpty get?
  cases hentries : m.entries with
  | nil => simp
  | cons entry rest =>
      simp only [List.isEmpty_cons, Bool.false_eq_true, false_iff, not_forall]
      exact ⟨entry.1, by simp⟩

theorem eq_empty_of_keys {m : PropertyMap V} {key : String} (hnone : m.get? key = none)
    (hkeys : ∀ k ∈ m.keys, k = key) : m = empty := by
  obtain ⟨entries, nodup⟩ := m
  cases entries with
  | nil => rfl
  | cons entry rest =>
      obtain rfl : entry.1 = key := hkeys _ (List.mem_cons_self ..)
      simp [get?] at hnone

theorem eq_insert_of_keys {m : PropertyMap V} {key : String} {value : V}
    (hvalue : m.get? key = some value) (hkeys : ∀ k ∈ m.keys, k = key) :
    m = empty.insert key value := by
  have hentry := get?_eq_some_iff_mem.mp hvalue
  obtain ⟨entries, nodup⟩ := m
  cases entries with
  | nil => cases hentry
  | cons entry rest =>
      cases rest with
      | nil => obtain rfl := List.mem_singleton.mp hentry; rfl
      | cons entry' rest =>
          have hfirst : entry.1 = key := hkeys _ (List.mem_cons_self ..)
          have hsecond : entry'.1 = key := hkeys _ (List.mem_cons_of_mem _ (List.mem_cons_self ..))
          simp [hfirst, hsecond] at nodup

/-! ## Writing one binding after another -/

theorem ofList_concat (bindings : List (String × V)) (key : String) (value : V) :
    ofList (bindings ++ [(key, value)]) = (ofList bindings).insert key value := by
  simp [ofList]

/-- The last value written under a name is the one it is bound to. -/
theorem get?_ofList (bindings : List (String × V)) (key : String) :
    (ofList bindings).get? key = bindings.reverse.lookup key := by
  induction bindings using List.reverseRecOn with
  | nil => rfl
  | append_singleton bindings binding ih =>
      obtain ⟨k, v⟩ := binding
      rw [ofList_concat, get?_insert, ih, List.reverse_concat, List.lookup_cons]
      by_cases hk : key = k
      · simp [hk]
      · simp [hk, beq_false_of_ne hk]

/-- The last writes of a history, in the order they were made. -/
def lastWrites : List (String × V) → List (String × V)
  | [] => []
  | write :: rest =>
    if write.1 ∈ rest.map Prod.fst then lastWrites rest else write :: lastWrites rest

/-- One more write takes the place of an earlier one under its name. -/
theorem lastWrites_concat (history : List (String × V)) (key : String) (value : V) :
    lastWrites (history ++ [(key, value)])
      = without key (lastWrites history) ++ [(key, value)] := by
  induction history with
  | nil => simp [lastWrites, without]
  | cons write rest ih =>
      by_cases hrest : write.1 ∈ rest.map Prod.fst
      · have hlater : write.1 ∈ (rest ++ [(key, value)]).map Prod.fst := by
          rw [List.map_append]
          exact List.mem_append_left _ hrest
        rw [List.cons_append, lastWrites, if_pos hlater, ih, lastWrites, if_pos hrest]
      · by_cases hkey : write.1 = key
        · have hlater : write.1 ∈ (rest ++ [(key, value)]).map Prod.fst := by simp [hkey]
          rw [List.cons_append, lastWrites, if_pos hlater, ih, lastWrites, if_neg hrest]
          simp [without, hkey]
        · have hlater : write.1 ∉ (rest ++ [(key, value)]).map Prod.fst := by
            rw [List.map_append, List.mem_append, not_or]
            exact ⟨hrest, by simpa using hkey⟩
          rw [List.cons_append, lastWrites, if_neg hlater, ih, lastWrites, if_neg hrest]
          simp [without, hkey]

/-- Of a history only the last writes are left. -/
theorem entries_ofList (history : List (String × V)) :
    (ofList history).entries = lastWrites history := by
  induction history using List.reverseRecOn with
  | nil => rfl
  | append_singleton history write ih =>
      rw [ofList_concat, entries_insert, ih, lastWrites_concat]

/-- The names are in the order of their last writes. -/
theorem keys_ofList (bindings : List (String × V)) :
    (ofList bindings).keys = (bindings.map Prod.fst).dedup := by
  rw [keys, entries_ofList]
  induction bindings with
  | nil => rfl
  | cons write rest ih =>
      rw [lastWrites, List.map_cons]
      by_cases hrest : write.1 ∈ rest.map Prod.fst
      · rw [if_pos hrest, List.dedup_cons_of_mem hrest, ih]
      · rw [if_neg hrest, List.dedup_cons_of_notMem hrest, List.map_cons, ih]

/-- Where all writes under a name write the same value, the order of the writes does not matter. -/
theorem get?_ofList_eq_some_iff {bindings : List (String × V)}
    (hsame : ∀ key v w, (key, v) ∈ bindings → (key, w) ∈ bindings → v = w) {key : String}
    {value : V} : (ofList bindings).get? key = some value ↔ (key, value) ∈ bindings := by
  rw [get?_ofList]
  constructor
  · intro h
    exact List.mem_reverse.mp (mem_of_lookup_eq_some h)
  · intro h
    have hbound : (bindings.reverse.lookup key).isSome :=
      List.lookup_isSome_iff.mpr ⟨(key, value), List.mem_reverse.mpr h, BEq.rfl⟩
    obtain ⟨other, hother⟩ := Option.isSome_iff_exists.mp hbound
    have hmem : (key, other) ∈ bindings := List.mem_reverse.mp (mem_of_lookup_eq_some hother)
    rw [hother, hsame key other value hmem h]

/-! ## Places of the last writes -/

/-- The write at a place of a history is the last one under its name. -/
def LastWrite (history : List (String × V)) (i : Nat) (key : String) (value : V) : Prop :=
  history[i]? = some (key, value) ∧ ∀ j later, i < j → history[j]? ≠ some (key, later)

section LastWrite

variable {write : String × V} {history rest : List (String × V)} {i : Nat} {key : String}
  {value : V}

theorem lastWrite_cons_zero :
    LastWrite (write :: rest) 0 key value ↔ write = (key, value) ∧ key ∉ rest.map Prod.fst := by
  have hlater : (∀ j later, 0 < j → (write :: rest)[j]? ≠ some (key, later)) ↔
      key ∉ rest.map Prod.fst := by
    constructor
    · intro hne hmem
      obtain ⟨⟨_, later⟩, hwrite, rfl⟩ := List.mem_map.mp hmem
      obtain ⟨j, hj⟩ := List.mem_iff_getElem?.mp hwrite
      exact hne (j + 1) later (Nat.succ_pos j) hj
    · intro hmem j later hj heq
      obtain ⟨j, rfl⟩ : ∃ n, j = n + 1 := ⟨j - 1, by omega⟩
      rw [List.getElem?_cons_succ] at heq
      exact hmem (List.mem_map_of_mem (List.mem_of_getElem? heq))
  rw [LastWrite, hlater, List.getElem?_cons_zero, Option.some.injEq]

theorem lastWrite_cons_succ :
    LastWrite (write :: rest) (i + 1) key value ↔ LastWrite rest i key value := by
  unfold LastWrite
  rw [List.getElem?_cons_succ]
  refine and_congr_right fun _ => ⟨fun hne j later hj => ?_, fun hne j later hj => ?_⟩
  · exact hne (j + 1) later (Nat.succ_lt_succ hj)
  · obtain ⟨j, rfl⟩ : ∃ n, j = n + 1 := ⟨j - 1, by omega⟩
    exact hne j later (Nat.lt_of_succ_lt_succ hj)

theorem mem_lastWrites_iff :
    (key, value) ∈ lastWrites history ↔ ∃ i, LastWrite history i key value := by
  induction history with
  | nil => simp [lastWrites, LastWrite]
  | cons write rest ih =>
      have hplaces : (∃ i, LastWrite (write :: rest) i key value) ↔
          (write = (key, value) ∧ key ∉ rest.map Prod.fst) ∨ ∃ i, LastWrite rest i key value := by
        rw [← lastWrite_cons_zero]
        constructor
        · rintro ⟨_ | i, h⟩
          · exact .inl h
          · exact .inr ⟨i, lastWrite_cons_succ.mp h⟩
        · rintro (h | ⟨i, h⟩)
          · exact ⟨0, h⟩
          · exact ⟨i + 1, lastWrite_cons_succ.mpr h⟩
      rw [hplaces, ← ih, lastWrites]
      split
      · rename_i hrest
        refine ⟨.inr, ?_⟩
        rintro (⟨rfl, hkey⟩ | h)
        · exact absurd hrest hkey
        · exact h
      · rename_i hrest
        rw [List.mem_cons, eq_comm]
        refine or_congr_left ⟨fun heq => ⟨heq, ?_⟩, And.left⟩
        rwa [heq] at hrest

/-- The value that a name is bound to is the one last written under it. -/
theorem get?_ofList_eq_some_iff_lastWrite :
    (ofList history).get? key = some value ↔ ∃ i, LastWrite history i key value := by
  rw [get?_eq_some_iff_mem, entries_ofList, mem_lastWrites_iff]

/-- Every name of a history has a last write. -/
theorem exists_lastWrite_of_mem (h : key ∈ history.map Prod.fst) :
    ∃ i value, LastWrite history i key value := by
  have hkey : key ∈ (ofList history).keys := by rwa [keys_ofList, List.mem_dedup]
  obtain ⟨value, hvalue⟩ := mem_keys_iff.mp hkey
  obtain ⟨i, hlast⟩ := get?_ofList_eq_some_iff_lastWrite.mp hvalue
  exact ⟨i, value, hlast⟩

theorem LastWrite.mem (h : LastWrite history i key value) : key ∈ history.map Prod.fst :=
  List.mem_map_of_mem (List.mem_of_getElem? h.1)

/-- Going through the last writes, the first answer comes from the earliest of them that has one. -/
theorem findSome?_lastWrites {β : Type} {f : String × V → Option β} {answer : β} :
    (lastWrites history).findSome? f = some answer ↔
      ∃ i key value, LastWrite history i key value ∧ f (key, value) = some answer
        ∧ ∀ j key' value', j < i → LastWrite history j key' value' → f (key', value') = none := by
  induction history with
  | nil => simp [lastWrites, LastWrite]
  | cons write rest ih =>
      -- what is not found at the first write is found one place further on in the rest
      have hfurther (hfirst : ∀ key value, LastWrite (write :: rest) 0 key value →
          f (key, value) = none) :
          (lastWrites rest).findSome? f = some answer ↔
            ∃ i key value, LastWrite (write :: rest) i key value ∧ f (key, value) = some answer
              ∧ ∀ j key' value', j < i → LastWrite (write :: rest) j key' value' →
                f (key', value') = none := by
        rw [ih]
        constructor
        · rintro ⟨i, key, value, hlast, hanswer, hbefore⟩
          refine ⟨i + 1, key, value, lastWrite_cons_succ.mpr hlast, hanswer, ?_⟩
          rintro (_ | j) key' value' hj hlast'
          · exact hfirst key' value' hlast'
          · exact hbefore j key' value' (Nat.lt_of_succ_lt_succ hj)
              (lastWrite_cons_succ.mp hlast')
        · rintro ⟨_ | i, key, value, hlast, hanswer, hbefore⟩
          · rw [hfirst key value hlast] at hanswer
            cases hanswer
          · refine ⟨i, key, value, lastWrite_cons_succ.mp hlast, hanswer, ?_⟩
            intro j key' value' hj hlast'
            exact hbefore (j + 1) key' value' (Nat.succ_lt_succ hj)
              (lastWrite_cons_succ.mpr hlast')
      rw [lastWrites]
      split
      · rename_i hrest
        refine hfurther fun key value hlast => ?_
        obtain ⟨rfl, hkey⟩ := lastWrite_cons_zero.mp hlast
        exact absurd hrest hkey
      · rename_i hrest
        rw [List.findSome?_cons]
        cases hwrite : f write with
        | none =>
            refine hfurther fun key value hlast => ?_
            obtain ⟨rfl, -⟩ := lastWrite_cons_zero.mp hlast
            exact hwrite
        | some own =>
            have hown : LastWrite (write :: rest) 0 write.1 write.2 :=
              lastWrite_cons_zero.mpr ⟨rfl, hrest⟩
            simp only [Option.some.injEq]
            constructor
            · rintro rfl
              exact ⟨0, write.1, write.2, hown, hwrite,
                fun _ _ _ hj => absurd hj (Nat.not_lt_zero _)⟩
            · rintro ⟨_ | i, key, value, hlast, hanswer, hbefore⟩
              · obtain ⟨rfl, -⟩ := lastWrite_cons_zero.mp hlast
                exact Option.some.inj (hwrite.symm.trans hanswer)
              · have hnone := hbefore 0 write.1 write.2 (Nat.succ_pos i) hown
                rw [hwrite] at hnone
                cases hnone

end LastWrite

/-! ## Keeping and erasing some names -/

/-- The bindings of the names that pass a test, in their order. -/
def filterKeys (keep : String → Bool) (m : PropertyMap V) : PropertyMap V where
  entries := m.entries.filter fun entry => keep entry.1
  nodup := m.nodup.sublist (List.filter_sublist.map _)

theorem get?_filterKeys (keep : String → Bool) (m : PropertyMap V) (key : String) :
    (m.filterKeys keep).get? key = if keep key then m.get? key else none := by
  ext value
  rw [get?_eq_some_iff_mem, Option.ite_none_right_eq_some, get?_eq_some_iff_mem]
  simp [filterKeys, List.mem_filter, and_comm]

/-- The map without bindings of these names. -/
def eraseAll (keys : List String) (m : PropertyMap V) : PropertyMap V :=
  keys.foldr (fun key m => m.erase key) m

theorem get?_eraseAll (keys : List String) (m : PropertyMap V) (key : String) :
    (m.eraseAll keys).get? key = if key ∈ keys then none else m.get? key := by
  induction keys with
  | nil => rfl
  | cons k rest ih =>
      rw [eraseAll, List.foldr_cons, get?_erase, ← eraseAll, ih]
      by_cases hk : key = k <;> simp [hk]

end PropertyMap

end Biparse
