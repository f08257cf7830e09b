import Biparse.Text.Outline

/-!
# Keyed maps

A persistent map in insertion order whose keys are compared by an equality that need not be
reflexive. Overwriting a key keeps its place and its first spelling; a key that does not equal
itself is never found and so is appended each time. `KeyedMap` carries the proof that no stored key
equals a later one.
-/

namespace Biparse

/-- Bindings of keys none of which equals a later one, in insertion order. -/
structure KeyedMap (K V : Type) [BEq K] where
  entries : List (K × V)
  distinct : entries.Pairwise fun a b => (a.1 == b.1) = false

namespace KeyedMap

variable {K V : Type} [BEq K]

/-- Puts `value` in the entry of the first stored key equal to `key`, or appends a new entry. -/
def write (key : K) (value : V) : List (K × V) → List (K × V)
  | [] => [(key, value)]
  | (k, v) :: rest => if k == key then (k, value) :: rest else (k, v) :: write key value rest

/-- The entries without the first one whose key equals `key`. -/
def drop (key : K) : List (K × V) → List (K × V)
  | [] => []
  | (k, v) :: rest => if k == key then rest else (k, v) :: drop key rest

theorem keys_write (key : K) (value : V) (entries : List (K × V)) :
    (write key value entries).map Prod.fst =
      if entries.any (fun entry => entry.1 == key) then entries.map Prod.fst
      else entries.map Prod.fst ++ [key] := by
  induction entries with
  | nil => rfl
  | cons entry rest ih =>
    obtain ⟨k, v⟩ := entry
    by_cases h : k == key
    · simp [write, h]
    · simp only [write, h, Bool.false_eq_true, if_false, List.map_cons, ih, List.any_cons,
        Bool.false_or]
      split <;> simp

theorem pairwise_iff_keys {entries : List (K × V)} :
    (entries.Pairwise fun a b => (a.1 == b.1) = false) ↔
      (entries.map Prod.fst).Pairwise fun a b => (a == b) = false := by
  rw [List.pairwise_map]

theorem distinct_write {key : K} {value : V} {entries : List (K × V)}
    (h : entries.Pairwise fun a b => (a.1 == b.1) = false) :
    (write key value entries).Pairwise fun a b => (a.1 == b.1) = false := by
  rw [pairwise_iff_keys] at h ⊢
  rw [keys_write]
  split
  · exact h
  · rename_i hnone
    rw [List.pairwise_append]
    refine ⟨h, List.pairwise_singleton _ _, ?_⟩
    intro a ha b hb
    rw [List.mem_singleton] at hb
    subst hb
    obtain ⟨entry, hentry, rfl⟩ := List.mem_map.1 ha
    simp only [List.any_eq_true, not_exists, not_and, Bool.not_eq_true] at hnone
    exact hnone entry hentry

theorem drop_sublist (key : K) (entries : List (K × V)) : (drop key entries).Sublist entries := by
  induction entries with
  | nil => exact List.Sublist.refl _
  | cons entry rest ih =>
    obtain ⟨k, v⟩ := entry
    unfold drop
    split
    · exact List.sublist_cons_self _ _
    · exact ih.cons_cons _

/-- The map without bindings. -/
def empty : KeyedMap K V := ⟨[], List.Pairwise.nil⟩

instance : Inhabited (KeyedMap K V) := ⟨empty⟩

/-- Number of bindings. -/
def size (m : KeyedMap K V) : Nat := m.entries.length

/-- Whether there are no bindings. -/
def isEmpty (m : KeyedMap K V) : Bool := m.entries.isEmpty

/-- The value of the first stored key equal to `key`. -/
def get? (m : KeyedMap K V) (key : K) : Option V :=
  (m.entries.find? fun entry => entry.1 == key).map Prod.snd

/-- Whether a stored key equals `key`. -/
def contains (m : KeyedMap K V) (key : K) : Bool := m.entries.any fun entry => entry.1 == key

/-- The stored keys, in insertion order. -/
def keys (m : KeyedMap K V) : List K := m.entries.map Prod.fst

/-- The map with `key` bound to `value`. -/
def insert (m : KeyedMap K V) (key : K) (value : V) : KeyedMap K V :=
  ⟨write key value m.entries, distinct_write m.distinct⟩

/-- The map without `key`, unless it is not bound. -/
def remove? (m : KeyedMap K V) (key : K) : Option (KeyedMap K V) :=
  if m.contains key then
    some ⟨drop key m.entries, m.distinct.sublist (drop_sublist key m.entries)⟩
  else none

/-- Writes bindings one after another into `entries`. -/
def writeAll (entries bindings : List (K × V)) : List (K × V) :=
  bindings.foldl (fun entries binding => write binding.1 binding.2 entries) entries

theorem distinct_writeAll {entries : List (K × V)} (bindings : List (K × V))
    (h : entries.Pairwise fun a b => (a.1 == b.1) = false) :
    (writeAll entries bindings).Pairwise fun a b => (a.1 == b.1) = false := by
  induction bindings generalizing entries with
  | nil => exact h
  | cons binding rest ih => exact ih (distinct_write h)

/-- The map of a list of bindings, the later ones written over the earlier ones. -/
def ofList (bindings : List (K × V)) : KeyedMap K V :=
  ⟨writeAll [] bindings, distinct_writeAll bindings List.Pairwise.nil⟩

/-- Equal keys in the same order with equal values. -/
def same [BEq V] (m n : KeyedMap K V) : Bool := m.entries == n.entries

instance [BEq V] : BEq (KeyedMap K V) := ⟨same⟩

/-- How a map is shown, given how its keys and values are. -/
def outline (key : K → Outline) (value : V → Outline) (m : KeyedMap K V) : Outline :=
  .dict (m.entries.map fun entry => (key entry.1, value entry.2))

end KeyedMap

end Biparse
