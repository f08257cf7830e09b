import Mathlib.Data.List.Induction
import Mathlib.Tactic.MkIffOfInductiveProp

/-!
# Histories of writes and removals

A history is a list of edits, each about one key. What a map made by a history holds, and in which
order, is said by places in the history: the last edit about a key (`Edit.LastAt`), and the write
since which the key has been bound (`Edit.OpeningWrite`). One more edit changes these places in a
way that the `_concat` lemmas spell out, so a statement about all histories goes by induction at the
end of the list. A listing of keys in the order of such places (`ListedBy`) is changed along.
-/

namespace Biparse

/-- What is done to a map: a key is bound to a value, or its binding is removed. -/
inductive Edit (K V : Type) where
  | write (key : K) (value : V)
  | remove (key : K)

namespace Edit

variable {K V : Type} {edits : List (Edit K V)} {edit other : Edit K V} {i : Nat} {k key : K}
  {value : V}

/-- The key an edit is about. -/
def target : Edit K V → K
  | write key _ => key
  | remove key => key

theorem getElem?_concat_iff :
    (edits ++ [edit])[i]? = some other ↔
      edits[i]? = some other ∨ (i = edits.length ∧ other = edit) := by
  rcases Nat.lt_trichotomy i edits.length with hlt | rfl | hgt
  · rw [List.getElem?_append_left hlt]
    simp [Nat.ne_of_lt hlt]
  · simp [eq_comm]
  · have hshort : edits.length ≤ i := Nat.le_of_lt hgt
    have hshort' : (edits ++ [edit]).length ≤ i := by rw [List.length_append]; exact hgt
    rw [List.getElem?_eq_none hshort, List.getElem?_eq_none hshort']
    simp [Nat.ne_of_gt hgt]

theorem lt_length_of_getElem? (h : edits[i]? = some edit) : i < edits.length :=
  (List.getElem?_eq_some_iff.mp h).1

theorem le_length_of_getElem?_concat (h : (edits ++ [edit])[i]? = some other) :
    i ≤ edits.length := by
  rcases getElem?_concat_iff.mp h with hin | ⟨rfl, -⟩
  · exact Nat.le_of_lt (lt_length_of_getElem? hin)
  · exact Nat.le_refl _

/-! ## The last edit about a key -/

/-- The edit stands at place `i` of the history, and no later one is about its key. -/
def LastAt (edits : List (Edit K V)) (i : Nat) (edit : Edit K V) : Prop :=
  edits[i]? = some edit ∧ ∀ j later, i < j → edits[j]? = some later → later.target ≠ edit.target

/-- The last edit about `key` stands at place `i` and is a write. -/
def LatestWrite (edits : List (Edit K V)) (i : Nat) (key : K) : Prop :=
  ∃ value, LastAt edits i (.write key value)

theorem LastAt.lt_length (h : LastAt edits i edit) : i < edits.length := lt_length_of_getElem? h.1

theorem lastAt_concat :
    LastAt (edits ++ [edit]) i other ↔
      (other.target ≠ edit.target ∧ LastAt edits i other) ∨ (i = edits.length ∧ other = edit) := by
  constructor
  · rintro ⟨hat, hlater⟩
    rcases getElem?_concat_iff.mp hat with hin | hend
    · have hnew : (edits ++ [edit])[edits.length]? = some edit :=
        getElem?_concat_iff.mpr (.inr ⟨rfl, rfl⟩)
      refine .inl ⟨?_, hin, ?_⟩
      · exact Ne.symm (hlater edits.length edit (lt_length_of_getElem? hin) hnew)
      · intro j later hj hlast
        exact hlater j later hj (getElem?_concat_iff.mpr (.inl hlast))
    · exact .inr hend
  · rintro (⟨hkey, hat, hlater⟩ | ⟨rfl, rfl⟩)
    · refine ⟨getElem?_concat_iff.mpr (.inl hat), ?_⟩
      intro j later hj hlast
      rcases getElem?_concat_iff.mp hlast with hin | ⟨-, rfl⟩
      · exact hlater j later hj hin
      · exact Ne.symm hkey
    · refine ⟨getElem?_concat_iff.mpr (.inr ⟨rfl, rfl⟩), ?_⟩
      intro j later hj hlast
      exact absurd (le_length_of_getElem?_concat hlast) (Nat.not_le.mpr hj)

theorem lastAt_concat_write {value' : V} :
    LastAt (edits ++ [.write k value]) i (.write key value') ↔
      (key ≠ k ∧ LastAt edits i (.write key value'))
        ∨ (i = edits.length ∧ key = k ∧ value' = value) := by
  rw [lastAt_concat, Edit.write.injEq]
  rfl

theorem lastAt_concat_remove {value' : V} :
    LastAt (edits ++ [.remove k]) i (.write key value') ↔
      key ≠ k ∧ LastAt edits i (.write key value') := by
  rw [lastAt_concat]
  simp [target]

theorem latestWrite_concat_write :
    LatestWrite (edits ++ [.write k value]) i key ↔
      (key ≠ k ∧ LatestWrite edits i key) ∨ (i = edits.length ∧ key = k) := by
  simp only [LatestWrite, lastAt_concat_write, exists_or, exists_and_left, exists_eq, and_true]

theorem latestWrite_concat_remove :
    LatestWrite (edits ++ [.remove k]) i key ↔ key ≠ k ∧ LatestWrite edits i key := by
  simp only [LatestWrite, lastAt_concat_remove, exists_and_left]

theorem LatestWrite.le {j : Nat} (hi : LatestWrite edits i key) (hj : LatestWrite edits j key) :
    j ≤ i := by
  obtain ⟨value, -, hlater⟩ := hi
  obtain ⟨value', hat, -⟩ := hj
  exact Nat.le_of_not_lt fun hlt => hlater j _ hlt hat rfl

/-- Of all keys that are bound, `key` is the one written last. -/
def MostRecent (edits : List (Edit K V)) (key : K) : Prop :=
  ∃ i, LatestWrite edits i key ∧ ∀ j other, LatestWrite edits j other → j ≤ i

/-! ## The write that opens a binding -/

/-- Since the write at place `i`, and since no earlier one, `key` has been bound. -/
@[mk_iff]
structure OpeningWrite (edits : List (Edit K V)) (i : Nat) (key : K) : Prop where
  written : ∃ value, edits[i]? = some (.write key value)
  kept : ∀ j, i < j → edits[j]? ≠ some (.remove key)
  first : ∀ j value, j < i → edits[j]? = some (.write key value) →
    ∃ r, j < r ∧ r < i ∧ edits[r]? = some (.remove key)

theorem OpeningWrite.lt_length (h : OpeningWrite edits i key) : i < edits.length := by
  obtain ⟨value, hat⟩ := h.written
  exact lt_length_of_getElem? hat

/-- A binding that stands has been opened: the writes before it are gone through backwards until one
is reached before which the key is removed. -/
theorem exists_openingWrite (hat : edits[i]? = some (.write key value))
    (hkept : ∀ j, i < j → edits[j]? ≠ some (.remove key)) : ∃ j, OpeningWrite edits j key := by
  induction i using Nat.strongRecOn generalizing value with
  | ind i ih =>
      by_cases hfirst : ∀ j value, j < i → edits[j]? = some (.write key value) →
          ∃ r, j < r ∧ r < i ∧ edits[r]? = some (.remove key)
      · exact ⟨i, ⟨value, hat⟩, hkept, hfirst⟩
      · push Not at hfirst
        obtain ⟨j, earlier, hj, hwrite, hbetween⟩ := hfirst
        refine ih j hj hwrite fun r hr hremove => ?_
        rcases Nat.lt_trichotomy r i with hlt | rfl | hgt
        · exact hbetween r hr hlt hremove
        · rw [hat] at hremove
          cases hremove
        · exact hkept r hgt hremove

/-- The write that opened a binding stays where it is, unless the edit removes the binding. -/
theorem openingWrite_concat_of_lt (hi : i < edits.length) :
    OpeningWrite (edits ++ [edit]) i key ↔ OpeningWrite edits i key ∧ edit ≠ .remove key := by
  have hbefore : ∀ j, j ≤ i → (edits ++ [edit])[j]? = edits[j]? := by
    intro j hj
    exact List.getElem?_append_left (by omega)
  have hkept : (∀ j, i < j → (edits ++ [edit])[j]? ≠ some (.remove key)) ↔
      (∀ j, i < j → edits[j]? ≠ some (.remove key)) ∧ edit ≠ .remove key := by
    constructor
    · intro h
      refine ⟨fun j hj hremove => h j hj (getElem?_concat_iff.mpr (.inl hremove)), ?_⟩
      rintro rfl
      exact h edits.length hi (getElem?_concat_iff.mpr (.inr ⟨rfl, rfl⟩))
    · rintro ⟨h, hne⟩ j hj hremove
      rcases getElem?_concat_iff.mp hremove with hin | ⟨-, rfl⟩
      · exact h j hj hin
      · exact hne rfl
  have hfirst : (∀ j value, j < i → (edits ++ [edit])[j]? = some (.write key value) →
        ∃ r, j < r ∧ r < i ∧ (edits ++ [edit])[r]? = some (.remove key)) ↔
      ∀ j value, j < i → edits[j]? = some (.write key value) →
        ∃ r, j < r ∧ r < i ∧ edits[r]? = some (.remove key) := by
    refine forall₃_congr fun j value hj => ?_
    rw [hbefore j (Nat.le_of_lt hj)]
    refine imp_congr_right fun _ => exists_congr fun r => and_congr_right fun _ =>
      and_congr_right fun hr => ?_
    rw [hbefore r (Nat.le_of_lt hr)]
  rw [openingWrite_iff, openingWrite_iff, hbefore i (Nat.le_refl i), hkept, hfirst]
  tauto

theorem openingWrite_concat_write :
    OpeningWrite (edits ++ [.write k value]) i key ↔
      OpeningWrite edits i key
        ∨ (i = edits.length ∧ key = k ∧ ∀ j, ¬ OpeningWrite edits j key) := by
  by_cases hi : i < edits.length
  · rw [openingWrite_concat_of_lt hi]
    simp [Nat.ne_of_lt hi]
  · constructor
    · rintro ⟨⟨value', hat⟩, -, hfirst⟩
      rcases getElem?_concat_iff.mp hat with hin | ⟨rfl, hend⟩
      · exact absurd (lt_length_of_getElem? hin) hi
      obtain ⟨rfl, -⟩ := Edit.write.inj hend
      refine .inr ⟨rfl, rfl, fun j hopen => ?_⟩
      -- what was opened before has been removed before the new write
      obtain ⟨earlier, hwrite⟩ := hopen.written
      obtain ⟨r, hr, -, hremove⟩ :=
        hfirst j earlier hopen.lt_length (getElem?_concat_iff.mpr (.inl hwrite))
      rcases getElem?_concat_iff.mp hremove with hin | ⟨-, hend⟩
      · exact hopen.kept r hr hin
      · cases hend
    · rintro (hopen | ⟨rfl, rfl, hnone⟩)
      · exact absurd hopen.lt_length hi
      refine ⟨⟨value, getElem?_concat_iff.mpr (.inr ⟨rfl, rfl⟩)⟩, fun j hj hremove => ?_,
        fun j earlier hj hwrite => ?_⟩
      · exact absurd (le_length_of_getElem?_concat hremove) (Nat.not_le.mpr hj)
      · rw [List.getElem?_append_left hj] at hwrite
        by_contra hbetween
        push Not at hbetween
        obtain ⟨o, hopen⟩ := exists_openingWrite hwrite fun r hr hremove =>
          hbetween r hr (lt_length_of_getElem? hremove) (getElem?_concat_iff.mpr (.inl hremove))
        exact hnone o hopen

theorem openingWrite_concat_remove :
    OpeningWrite (edits ++ [.remove k]) i key ↔ key ≠ k ∧ OpeningWrite edits i key := by
  by_cases hi : i < edits.length
  · rw [openingWrite_concat_of_lt hi, and_comm, ne_eq, Edit.remove.injEq, eq_comm]
  · constructor
    · rintro ⟨⟨value, hat⟩, -, -⟩
      rcases getElem?_concat_iff.mp hat with hin | ⟨-, hend⟩
      · exact absurd (lt_length_of_getElem? hin) hi
      · cases hend
    · rintro ⟨-, hopen⟩
      exact absurd hopen.lt_length hi

end Edit

/-! ## Keys in the order of their places -/

/-- The keys listed are those that have a place, in the order of their places. -/
structure ListedBy {K : Type} (place : Nat → K → Prop) (keys : List K) : Prop where
  mem_iff : ∀ key, key ∈ keys ↔ ∃ i, place i key
  ordered : keys.Pairwise fun a b => ∀ i j, place i a → place j b → i < j

namespace ListedBy

variable {K : Type} {place place' : Nat → K → Prop} {keys : List K}

theorem congr (h : ListedBy place keys) (hsame : ∀ i key, place' i key ↔ place i key) :
    ListedBy place' keys := by
  obtain rfl : place' = place := by
    funext i key
    exact propext (hsame i key)
  exact h

/-- The other keys are still listed by their places. -/
theorem without [BEq K] [LawfulBEq K] (h : ListedBy place keys) (k : K) :
    ListedBy (fun i key => key ≠ k ∧ place i key) (keys.filter (· != k)) := by
  constructor
  · intro key
    rw [List.mem_filter, h.mem_iff, bne_iff_ne, and_comm, exists_and_left]
  · refine (h.ordered.sublist List.filter_sublist).imp ?_
    intro a b hlt i j hi hj
    exact hlt i j hi.2 hj.2

/-- The key listed last is the one with the last place. -/
theorem getLast?_eq_some_iff {key : K} (h : ListedBy place keys)
    (hlast : ∀ i j key, place i key → place j key → j ≤ i) :
    keys.getLast? = some key ↔ ∃ i, place i key ∧ ∀ j other, place j other → j ≤ i := by
  cases keys using List.reverseRecOn with
  | nil =>
      refine ⟨nofun, ?_⟩
      rintro ⟨i, hi, -⟩
      cases (h.mem_iff key).mpr ⟨i, hi⟩
  | append_singleton before last =>
      have hbefore := (List.pairwise_append.mp h.ordered).2.2
      simp only [List.getLast?_concat, Option.some.injEq]
      constructor
      · rintro rfl
        obtain ⟨i, hi⟩ := (h.mem_iff last).mp (by simp)
        refine ⟨i, hi, fun j other hj => ?_⟩
        rcases List.mem_append.mp ((h.mem_iff other).mpr ⟨j, hj⟩) with hother | hother
        · exact Nat.le_of_lt (hbefore other hother last (by simp) j i hj hi)
        · obtain rfl := List.mem_singleton.mp hother
          exact hlast i j other hi hj
      · rintro ⟨i, hi, hmax⟩
        rcases List.mem_append.mp ((h.mem_iff key).mpr ⟨i, hi⟩) with hkey | hkey
        · obtain ⟨j, hj⟩ := (h.mem_iff last).mp (by simp)
          exact absurd (hmax j last hj) (Nat.not_le.mpr (hbefore key hkey last (by simp) i j hi hj))
        · exact (List.mem_singleton.mp hkey).symm

/-- A key without a place is listed last when it gets one after all others. -/
theorem concat {n : Nat} {k : K} (h : ListedBy place keys) (hfresh : ∀ i, ¬ place i k)
    (hbefore : ∀ i key, place i key → i < n) :
    ListedBy (fun i key => place i key ∨ (i = n ∧ key = k)) (keys ++ [k]) := by
  have hold : ∀ a ∈ keys, ∀ i, place i a ∨ (i = n ∧ a = k) → place i a := by
    intro a ha i hi
    obtain ⟨j, hj⟩ := (h.mem_iff a).mp ha
    exact hi.resolve_right fun hnew => hfresh j (hnew.2 ▸ hj)
  constructor
  · intro key
    rw [List.mem_append, List.mem_singleton, h.mem_iff]
    constructor
    · rintro (⟨i, hi⟩ | rfl)
      · exact ⟨i, .inl hi⟩
      · exact ⟨n, .inr ⟨rfl, rfl⟩⟩
    · rintro ⟨i, hi | ⟨-, hkey⟩⟩
      · exact .inl ⟨i, hi⟩
      · exact .inr hkey
  · rw [List.pairwise_append]
    refine ⟨h.ordered.imp_of_mem ?_, List.pairwise_singleton _ _, ?_⟩
    · intro a b ha hb hlt i j hi hj
      exact hlt i j (hold a ha i hi) (hold b hb j hj)
    · intro a ha b hb i j hi hj
      obtain rfl := List.mem_singleton.mp hb
      obtain ⟨rfl, -⟩ := hj.resolve_left (hfresh j)
      exact hbefore i a (hold a ha i hi)

end ListedBy

end Biparse
