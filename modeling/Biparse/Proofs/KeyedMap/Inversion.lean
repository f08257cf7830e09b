import Biparse.KeyedMap.Component
import Biparse.Proofs.KeyedMap.PartialKeys
import Biparse.Proofs.Unwinding
import Mathlib.Data.List.Forall2

/-!
# Keyed puts are taken back at the entry of their key

A put and its inverses all work at one place, the entry whose key equals that of the put
(`Parts`). A key that does not equal itself has no such entry in any map, so what is put under it
is never taken back.

Taking a put back forgets the spelling of the stored key and its place. Putting the same again
appends the entry, so it restores the order of a map only when the entry was the last one
(`keyed_puts_taken_back`).
-/

namespace Biparse.KeyedMap

variable {K V : Type} [BEq K] {m : KeyedMap K V} {key k : K} {value v : V} {entry : K × V}
  {before after : List (K × V)}

/-! ## The entry of a key -/

/-- The entry whose key equals `key`, and those before and after it. -/
structure Parts (m : KeyedMap K V) (key : K) (before : List (K × V)) (entry : K × V)
    (after : List (K × V)) : Prop where
  entries_eq : m.entries = before ++ entry :: after
  same_key : (entry.1 == key) = true

/-- No stored key equals `key`. -/
def Lacks (m : KeyedMap K V) (key : K) : Prop := ∀ entry ∈ m.entries, (entry.1 == key) = false

theorem lacks_iff : m.Lacks key ↔ m.contains key = false := by
  simp only [Lacks, contains, List.any_eq_false, Bool.not_eq_true]

theorem get?_eq_none_iff : m.get? key = none ↔ m.Lacks key := by
  rw [lacks_iff, contains_eq_isSome_get?, Option.isSome_eq_false_iff, Option.isNone_iff_eq_none]

theorem remove?_eq_none_iff : m.remove? key = none ↔ m.Lacks key := by
  rw [lacks_iff, ← isSome_remove?, Option.isSome_eq_false_iff, Option.isNone_iff_eq_none]

theorem exists_parts (h : m.get? key = some v) :
    ∃ before k after, m.Parts key before (k, v) after := by
  obtain ⟨⟨k, u⟩, hfind, rfl⟩ := Option.map_eq_some_iff.mp h
  obtain ⟨hkey, before, after, hentries, -⟩ := List.find?_eq_some_iff_append.mp hfind
  exact ⟨before, k, after, hentries, hkey⟩

theorem write_append (h : ∀ entry ∈ before, (entry.1 == key) = false) (v : V)
    (entries : List (K × V)) :
    write key v (before ++ entries) = before ++ write key v entries := by
  induction before with
  | nil => rfl
  | cons entry before ih =>
      rw [List.forall_mem_cons] at h
      rw [List.cons_append, write, if_neg (Bool.eq_false_iff.mp h.1), ih h.2, List.cons_append]

theorem Lacks.entries_insert (h : m.Lacks key) (v : V) :
    (m.insert key v).entries = m.entries ++ [(key, v)] := by
  have hwrite := write_append h v []
  rwa [List.append_nil] at hwrite

theorem Lacks.parts_insert (h : m.Lacks key) (hself : (key == key) = true) (v : V) :
    (m.insert key v).Parts key m.entries (key, v) [] :=
  ⟨h.entries_insert v, hself⟩

/-- A put takes one entry with it when it is taken back, whatever the equality of keys is like. -/
theorem shrink_putFold (V : Type) (key : K) : Fold.Shrink size [putFold K V key] := by
  intro fold hfold m v rest hback
  obtain rfl := List.mem_singleton.mp hfold
  exact size_of_remove? hback.1

/-! ## Under a partial equivalence -/

section PartialEquiv

variable [PartialEquivBEq K]

/-- A second entry with an equal key would equal the first. -/
theorem Parts.ne_of_mem (h : m.Parts key before entry after) :
    (∀ other ∈ before, (other.1 == key) = false) ∧ ∀ other ∈ after, (other.1 == key) = false := by
  have hdistinct := m.distinct
  rw [h.entries_eq, List.pairwise_append, List.pairwise_cons] at hdistinct
  obtain ⟨-, ⟨hafter, -⟩, hbefore⟩ := hdistinct
  constructor
  · intro other hother
    rw [← BEq.congr_right h.same_key]
    exact hbefore other hother entry List.mem_cons_self
  · intro other hother
    rw [← BEq.congr_right h.same_key, BEq.comm]
    exact hafter other hother

theorem Parts.get? (h : m.Parts key before (k, v) after) : m.get? key = some v := by
  have hbefore : before.find? (fun entry => entry.1 == key) = none :=
    List.find?_eq_none.mpr fun other hother => Bool.eq_false_iff.mp (h.ne_of_mem.1 other hother)
  rw [KeyedMap.get?, h.entries_eq, List.find?_append, hbefore, Option.none_or, List.find?_cons,
    h.same_key]
  rfl

theorem Parts.insert (h : m.Parts key before (k, value) after) (v : V) :
    (m.insert key v).Parts key before (k, v) after where
  entries_eq := by
    have hwrite := write_append h.ne_of_mem.1 v ((k, value) :: after)
    rwa [write, if_pos h.same_key, ← h.entries_eq] at hwrite
  same_key := h.same_key

theorem Parts.remove? (h : m.Parts key before entry after) :
    ∃ rest, m.remove? key = some rest ∧ rest.entries = before ++ after := by
  have hbound : m.contains key = true := by
    rw [contains, h.entries_eq, List.any_append, List.any_cons, h.same_key, Bool.true_or,
      Bool.or_true]
  rw [← isSome_remove?] at hbound
  obtain ⟨rest, hremove⟩ := Option.isSome_iff_exists.mp hbound
  refine ⟨rest, hremove, ?_⟩
  rw [entries_of_remove? hremove, h.entries_eq, drop_append h.ne_of_mem.1, drop, if_pos h.same_key]

/-- A key that does not equal itself equals no stored one either. -/
theorem lacks_of_not_self (h : (key == key) = false) (m : KeyedMap K V) : m.Lacks key :=
  get?_eq_none_iff.mp (get?_eq_none_of_not_self m h)

/-! ## One put -/

/-- Equal values, and keys that are spelled alike or equal. -/
def SameEntry (a b : K × V) : Prop := (a.1 = b.1 ∨ (a.1 == b.1) = true) ∧ a.2 = b.2

/-- Appending the entry of a key again keeps the order of the entries if it was the last. -/
theorem Parts.same_order_iff (h : m.Parts key before (k, v) after) :
    List.Forall₂ SameEntry (before ++ after ++ [(key, v)]) m.entries ↔ after = [] := by
  rw [h.entries_eq]
  constructor
  · intro hsame
    have htails := List.forall₂_drop before.length hsame
    rw [List.append_assoc, List.drop_left, List.drop_left] at htails
    cases hafter : after with
    | nil => rfl
    | cons other after' =>
        subst hafter
        -- the entry after the one of the key has come to its place, but its key is another
        obtain ⟨hother, -⟩ := (List.forall₂_cons.mp htails).1
        have hne := h.ne_of_mem.2 other List.mem_cons_self
        rcases hother with heq | heq
        · rw [heq, h.same_key] at hne
          cases hne
        · rw [BEq.trans heq h.same_key] at hne
          cases hne
  · rintro rfl
    rw [List.append_nil]
    exact List.rel_append (List.forall₂_same.mpr fun _ _ => ⟨.inl rfl, rfl⟩)
      (.cons ⟨.inr (BEq.symm h.same_key), rfl⟩ .nil)

/-- What a put under `key`, and taking it back, does to a map. -/
structure PutLaws (key : K) (m : KeyedMap K V) : Prop where
  leftInverse_none : (putFold K V key).leftInverse m = none ↔ m.Lacks key
  rightInverse_none : (putFold K V key).rightInverse m = none ↔ m.Lacks key
  rightInverse_forward : (key == key) = true → ∀ context v,
    (putFold K V key).rightInverse ((putFold K V key).forward context m v) = some v
  leftInverse_forward_lacks : (key == key) = true → m.Lacks key → ∀ context v,
    (putFold K V key).leftInverse ((putFold K V key).forward context m v) = some m
  leftInverse_forward_parts : ∀ before entry after, m.Parts key before entry after →
    ∀ context v, ∃ rest,
      (putFold K V key).leftInverse ((putFold K V key).forward context m v) = some rest
        ∧ rest.entries = before ++ after
  forward_not_self : (key == key) = false → ∀ context v,
    (putFold K V key).leftInverse ((putFold K V key).forward context m v) = none
      ∧ (putFold K V key).rightInverse ((putFold K V key).forward context m v) = none
      ∧ ((putFold K V key).forward context m v).size = m.size + 1
  forward_inverses : ∀ rest v, (putFold K V key).TakenBack m v rest →
    ∃ before k after, m.Parts key before (k, v) after ∧ rest.entries = before ++ after
      ∧ ∀ context,
        ((putFold K V key).forward context rest v).entries = before ++ after ++ [(key, v)]
          ∧ (List.Forall₂ SameEntry ((putFold K V key).forward context rest v).entries m.entries ↔
              after = [])

theorem putLaws (key : K) (m : KeyedMap K V) : PutLaws key m where
  leftInverse_none := remove?_eq_none_iff
  rightInverse_none := get?_eq_none_iff
  rightInverse_forward hself _ v := ((sound m).get?_insert_self key v).mpr hself
  leftInverse_forward_lacks hself hlacks context v := by
    obtain ⟨rest, hremove, hrest⟩ := (hlacks.parts_insert hself v).remove?
    rw [List.append_nil] at hrest
    exact hremove.trans (congrArg some (eq_of_entries hrest))
  leftInverse_forward_parts _ _ _ hparts _ v := (hparts.insert v).remove?
  forward_not_self hself context v :=
    ⟨remove?_eq_none_iff.mpr (lacks_of_not_self hself _),
      get?_eq_none_iff.mpr (lacks_of_not_self hself _),
      size_insert_of_unbound (lacks_iff.mp (lacks_of_not_self hself m))⟩
  forward_inverses := by
    rintro rest v ⟨hleft, hright⟩
    obtain ⟨before, k, after, hparts⟩ := exists_parts hright
    obtain ⟨rest', hremove, hrest⟩ := hparts.remove?
    obtain rfl : rest' = rest := Option.some.inj (hremove.symm.trans hleft)
    have hlacks : rest'.Lacks key := by
      rw [lacks_iff]
      exact ((sound m).remove?_self key rest' hleft).1
    have hforward : (rest'.insert key v).entries = before ++ after ++ [(key, v)] := by
      rw [hlacks.entries_insert, hrest]
    refine ⟨before, k, after, hparts, hrest, fun context => ⟨hforward, ?_⟩⟩
    rw [← hparts.same_order_iff, ← hforward]
    rfl

/-! ## Maps of one entry -/

/-- What making a map of one entry under `key`, and taking it apart, gives. -/
structure SingletonLaws (V : Type) (key : K) : Prop where
  backward_forward : ∀ context v, ∃ m, (singleton K V key).forward context v = .ok m
    ∧ ((singleton K V key).backward m = some v ↔ (key == key) = true)
  backward_iff : ∀ m v, (singleton K V key).backward m = some v ↔
    ∃ k, m.entries = [(k, v)] ∧ (k == key) = true

theorem backward_singleton_iff : (singleton K V key).backward m = some v ↔
    ∃ k, m.entries = [(k, v)] ∧ (k == key) = true := by
  rw [singleton, Option.ite_none_right_eq_some, size]
  constructor
  · rintro ⟨hsize, hget⟩
    obtain ⟨before, k, after, hparts⟩ := exists_parts hget
    rw [hparts.entries_eq, List.length_append, List.length_cons] at hsize
    obtain rfl := List.eq_nil_of_length_eq_zero (l := before) (by omega)
    obtain rfl := List.eq_nil_of_length_eq_zero (l := after) (by omega)
    exact ⟨k, hparts.entries_eq, hparts.same_key⟩
  · rintro ⟨k, hentries, hkey⟩
    have hparts : m.Parts key [] (k, v) [] := ⟨hentries, hkey⟩
    exact ⟨by rw [hentries, List.length_singleton], hparts.get?⟩

theorem singletonLaws (V : Type) (key : K) : SingletonLaws V key where
  backward_forward context v := by
    refine ⟨empty.insert key v, rfl, ?_⟩
    rw [backward_singleton_iff]
    constructor
    · rintro ⟨k, hentries, hkey⟩
      obtain ⟨⟨rfl, -⟩, -⟩ := List.cons.inj hentries
      exact hkey
    · exact fun hself => ⟨key, rfl, hself⟩
  backward_iff _ _ := backward_singleton_iff

/-- Puts are taken back at the entry of their key, and maps of one entry are taken apart by the
key of it, where the equality of keys is symmetric and transitive. -/
theorem keyed_puts_taken_back {K V : Type} [BEq K] [PartialEquivBEq K] (key : K)
    (m : KeyedMap K V) : PutLaws key m ∧ SingletonLaws V key :=
  ⟨putLaws key m, singletonLaws V key⟩

/-- A put of the negative zero takes back what is stored under the positive one, and puts it at the
end in its own spelling; what is put under a list around a not-a-number stays. -/
theorem keyed_puts_taken_back_elements :
    ∃ m rest : KeyedMap Elem Elem,
      m = ofList [(.float (.finite false 0), .int 1), (.int 2, .int 3)]
        ∧ (putFold Elem Elem (.float (.finite true 0))).TakenBack m (.int 1) rest
        ∧ ((putFold Elem Elem (.float (.finite true 0))).forward ⟨0, 0⟩ rest (.int 1)).entries
          = [(.int 2, .int 3), (.float (.finite true 0), .int 1)]
        ∧ (putFold Elem Elem (.list [.float .nan])).rightInverse
            ((putFold Elem Elem (.list [.float .nan])).forward ⟨0, 0⟩ m .unit) = none := by
  obtain ⟨hzero, -⟩ := keyed_puts_taken_back (K := Elem) (V := Elem) (.float (.finite true 0))
    (ofList [(.float (.finite false 0), .int 1), (.int 2, .int 3)])
  obtain ⟨hlist, -⟩ := keyed_puts_taken_back (K := Elem) (V := Elem) (.list [.float .nan])
    (ofList [(.float (.finite false 0), .int 1), (.int 2, .int 3)])
  have hback : (putFold Elem Elem (.float (.finite true 0))).TakenBack
      (ofList [(.float (.finite false 0), .int 1), (.int 2, .int 3)]) (.int 1)
      (ofList [(.int 2, .int 3)]) := ⟨rfl, rfl⟩
  obtain ⟨before, k, after, -, hrest, hforward⟩ := hzero.forward_inverses _ _ hback
  refine ⟨_, _, rfl, hback, ?_, (hlist.forward_not_self (by decide) ⟨0, 0⟩ .unit).2.1⟩
  rw [(hforward ⟨0, 0⟩).1, ← hrest]
  rfl

end PartialEquiv

end Biparse.KeyedMap
