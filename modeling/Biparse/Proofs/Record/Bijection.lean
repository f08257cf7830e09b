import Biparse.Proofs.PropertyMap.Recency
import Biparse.Proofs.Record.Lawful
import Biparse.Record.Creator
import Biparse.Record.Sample

/-!
# Creators on lawful shapes

A creator builds in the order of a property map and takes apart in the order of its list. On a
lawful shape the two are inverse as far as they can be (`creator_partially_bijective`): the map that
comes back has the bindings of the first one, in the order of the last occurrences in the list, and
it builds a record that reads the same.
-/

namespace Biparse

section AnyPayloads

variable [Payloads]

/-! ## Creators -/

namespace RecordCreator

variable {R : Type} {shape : RecordShape R} {listed : List String}

/-- The creator that the list makes: the listed accessors in list order, and a builder that knows
no others. -/
def ofListed (shape : RecordShape R) (listed : List String) (make : Span → Except String R)
    (unknown : UnknownPolicy) : RecordCreator R where
  builder := ⟨shape.name, make, shape.accessors.filterKeys listed.contains, unknown⟩
  getters := listed.filterMap fun p => (shape.accessor? p).map (p, ·)

theorem accessors_eq_ok
    (hregistered : ∀ p ∈ listed, ∃ accessor, shape.accessor? p = some accessor) :
    accessors shape listed = .ok (listed.filterMap fun p => (shape.accessor? p).map (p, ·)) := by
  induction listed with
  | nil => rfl
  | cons p rest ih =>
      obtain ⟨accessor, haccessor⟩ := hregistered p (List.mem_cons_self ..)
      have hrest := ih fun q hq => hregistered q (List.mem_cons_of_mem p hq)
      rw [accessors, haccessor]
      simp [hrest, haccessor, Except.map]

theorem registered_of_accessors {getters : List (String × Accessor R)}
    (h : accessors shape listed = .ok getters) :
    ∀ p ∈ listed, ∃ accessor, shape.accessor? p = some accessor := by
  induction listed generalizing getters with
  | nil => simp
  | cons p rest ih =>
      rw [accessors] at h
      cases haccessor : shape.accessor? p with
      | none => simp [haccessor] at h
      | some accessor =>
          cases hrest : accessors shape rest with
          | error e => simp [haccessor, hrest, Except.map] at h
          | ok others => exact List.forall_mem_cons.mpr ⟨⟨accessor, haccessor⟩, ih hrest⟩

theorem new_eq_ok_iff {config : BuilderConfig} {creator : RecordCreator R} :
    RecordCreator.new shape listed config = .ok creator ↔
      (∀ p ∈ listed, ∃ accessor, shape.accessor? p = some accessor)
        ∧ ∃ make, shape.constructor config.withContext = .ok make
          ∧ ofListed shape listed make config.unknown = creator := by
  unfold RecordCreator.new
  constructor
  · intro h
    obtain ⟨getters, haccessors, h⟩ := bind_eq_ok_iff.mp h
    obtain ⟨builder, hbuilder, h⟩ := bind_eq_ok_iff.mp h
    have hregistered := registered_of_accessors haccessors
    obtain rfl := Except.ok.inj (haccessors.symm.trans (accessors_eq_ok hregistered))
    obtain ⟨make, hmake, rfl⟩ := RecordBuilder.restricted_eq_ok_iff.mp hbuilder
    exact ⟨hregistered, make, hmake, Except.ok.inj h⟩
  · rintro ⟨hregistered, make, hmake, rfl⟩
    have hbuilder : RecordBuilder.restricted shape config listed.contains
        = .ok (ofListed shape listed make config.unknown).builder :=
      RecordBuilder.restricted_eq_ok_iff.mpr ⟨make, hmake, rfl⟩
    rw [accessors_eq_ok hregistered, hbuilder]
    rfl

theorem new_eq_ok {config : BuilderConfig} {make : Span → Except String R}
    (hregistered : ∀ p ∈ listed, ∃ accessor, shape.accessor? p = some accessor)
    (hmake : shape.constructor config.withContext = .ok make) :
    RecordCreator.new shape listed config
      = .ok (ofListed shape listed make config.unknown) :=
  new_eq_ok_iff.mpr ⟨hregistered, make, hmake, rfl⟩

theorem properties_ofListed
    (hregistered : ∀ p ∈ listed, ∃ accessor, shape.accessor? p = some accessor)
    (make : Span → Except String R) (unknown : UnknownPolicy) :
    (ofListed shape listed make unknown).properties = listed := by
  unfold properties ofListed
  induction listed with
  | nil => rfl
  | cons p rest ih =>
      obtain ⟨accessor, haccessor⟩ := hregistered p (List.mem_cons_self ..)
      have hrest := ih fun q hq => hregistered q (List.mem_cons_of_mem p hq)
      simpa [haccessor] using hrest

theorem rejectsAllBut_ofListed (shape : RecordShape R) (listed : List String)
    (make : Span → Except String R) :
    (ofListed shape listed make .reject).builder.RejectsAllBut shape listed where
  get?_setters p := by
    simp [ofListed, SortedMap.get?_filterKeys, RecordShape.accessor?]
  unknown_eq := rfl

/-- Taking a record apart writes the listed properties that are set, in list order. -/
theorem decompose_ofListed (shape : RecordShape R) (listed : List String)
    (make : Span → Except String R) (unknown : UnknownPolicy) (record : R) :
    (ofListed shape listed make unknown).decompose record
      = .ofList (listed.filterMap fun p => (shape.read? record p).map (p, ·)) := by
  unfold decompose ofListed
  simp only [List.filterMap_filterMap]
  congr 2
  funext p
  cases haccessor : shape.accessor? p <;> simp [RecordShape.read?, haccessor]

/-! ### What is built and what it is taken apart into -/

section

variable {make : Span → Except String R} {context : Span} {start : R}

theorem forward_isOk_iff (lawful : shape.Lawful listed) (hstart : make context = .ok start)
    (m : PropertyMap Value) :
    (∃ record, (ofListed shape listed make .reject).mapping.forward context m = .ok record) ↔
      ∀ key value, m.get? key = some value → shape.Accepts listed key value := by
  simp only [mapping, RecordBuilder.forward_eq_ok_iff]
  exact RecordBuilder.build_isOk_iff lawful (rejectsAllBut_ofListed shape listed make) hstart

/-- The record reads as the map it was built from. -/
theorem read?_forward (lawful : shape.Lawful listed) (hstart : make context = .ok start)
    (hunset : ∀ p ∈ listed, shape.read? start p = none) {m : PropertyMap Value} {record : R}
    (hforward : (ofListed shape listed make .reject).mapping.forward context m = .ok record)
    {p : String} (hp : p ∈ listed) : shape.read? record p = m.get? p := by
  have hread := RecordBuilder.read?_build lawful (rejectsAllBut_ofListed shape listed make) hstart
    (RecordBuilder.forward_eq_ok_iff.mp hforward) hp
  rw [hread, hunset p hp, Option.or_none]

/-- The bindings that taking a record apart writes. -/
theorem mem_bindings_iff {record : R} {key : String} {value : Value} :
    (key, value) ∈ listed.filterMap (fun p => (shape.read? record p).map (p, ·)) ↔
      key ∈ listed ∧ shape.read? record key = some value := by
  simp only [List.mem_filterMap, Option.map_eq_some_iff, Prod.mk.injEq]
  constructor
  · rintro ⟨p, hp, v, hv, rfl, rfl⟩
    exact ⟨hp, hv⟩
  · rintro ⟨hkey, hvalue⟩
    exact ⟨key, hkey, value, hvalue, rfl, rfl⟩

theorem get?_decompose (unknown : UnknownPolicy) (record : R) (key : String) :
    ((ofListed shape listed make unknown).decompose record).get? key
      = if key ∈ listed then shape.read? record key else none := by
  rw [decompose_ofListed]
  ext value
  rw [PropertyMap.get?_ofList_eq_some_iff, mem_bindings_iff]
  · simp
  · intro key v w hv hw
    rw [mem_bindings_iff] at hv hw
    exact Option.some.inj (hv.2.symm.trans hw.2)

theorem keys_decompose (unknown : UnknownPolicy) (record : R) :
    ((ofListed shape listed make unknown).decompose record).keys
      = listed.dedup.filter fun p => (shape.read? record p).isSome := by
  have hnames : (listed.filterMap fun p => (shape.read? record p).map (p, ·)).map Prod.fst
      = listed.filter fun p => (shape.read? record p).isSome := by
    induction listed with
    | nil => rfl
    | cons p rest ih => cases hp : shape.read? record p <;> simp [hp, ih]
  rw [decompose_ofListed, PropertyMap.keys_ofList, hnames, dedup_filter]

/-- What a record is taken apart into builds a record that reads the same. -/
theorem forward_decompose (lawful : shape.Lawful listed) (hstart : make context = .ok start)
    (hunset : ∀ p ∈ listed, shape.read? start p = none) (record : R) :
    ∃ record', (ofListed shape listed make .reject).mapping.forward context
        ((ofListed shape listed make .reject).decompose record) = .ok record'
      ∧ ∀ p ∈ listed, shape.read? record' p = shape.read? record p := by
  have haccepts : ∀ key value,
      ((ofListed shape listed make .reject).decompose record).get? key = some value →
        shape.Accepts listed key value := by
    intro key value hvalue
    rw [get?_decompose] at hvalue
    obtain ⟨hkey, hread⟩ : key ∈ listed ∧ shape.read? record key = some value := by
      simpa using hvalue
    obtain ⟨accessor, haccessor, hread⟩ := Option.bind_eq_some_iff.mp hread
    obtain ⟨payload, -, rfl⟩ := Option.map_eq_some_iff.mp hread
    exact ⟨hkey, accessor, haccessor, Value.ty_of accessor.ty payload⟩
  obtain ⟨record', hforward⟩ := (forward_isOk_iff lawful hstart _).mpr haccepts
  refine ⟨record', hforward, fun p hp => ?_⟩
  rw [read?_forward lawful hstart hunset hforward hp, get?_decompose, if_pos hp]

end

end RecordCreator

/-- A creator is a partial bijection between property maps and records on a lawful shape. A map
builds exactly when each of its bindings is accepted; the record is taken apart into the same
bindings, in the order of the last occurrences in the list, and these build a record that reads the
same. Every record is taken apart into the listed properties that are set, and these build a record
that reads the same. -/
theorem creator_partially_bijective {R : Type} (shape : RecordShape R) (listed : List String)
    (withContext : Bool) (context : Span) (lawful : shape.Lawful listed)
    (starts : shape.StartsUnset listed withContext context) :
    ∃ creator, RecordCreator.new shape listed ⟨withContext, .reject⟩ = .ok creator
      ∧ (∀ m : PropertyMap Value,
        ((∃ record, creator.mapping.forward context m = .ok record) ↔
          ∀ key value, m.get? key = some value → shape.Accepts listed key value)
        ∧ ∀ record, creator.mapping.forward context m = .ok record →
          ∃ m', creator.mapping.backward record = some m'
            ∧ (∀ key, m'.get? key = m.get? key)
            ∧ m'.keys = listed.dedup.filter m.contains
            ∧ ∃ record', creator.mapping.forward context m' = .ok record'
              ∧ ∀ p ∈ listed, shape.read? record' p = shape.read? record p)
      ∧ ∀ record, ∃ m', creator.mapping.backward record = some m'
        ∧ (∀ key, m'.get? key = if key ∈ listed then shape.read? record key else none)
        ∧ ∃ record', creator.mapping.forward context m' = .ok record'
          ∧ ∀ p ∈ listed, shape.read? record' p = shape.read? record p := by
  obtain ⟨make, start, hmake, hstart, hunset⟩ := starts
  refine ⟨.ofListed shape listed make .reject, RecordCreator.new_eq_ok lawful.registered hmake,
    fun m => ⟨RecordCreator.forward_isOk_iff lawful hstart m, fun record hforward => ?_⟩,
    fun record => ⟨_, rfl, RecordCreator.get?_decompose .reject record,
      RecordCreator.forward_decompose lawful hstart hunset record⟩⟩
  have haccepts := (RecordCreator.forward_isOk_iff lawful hstart m).mp ⟨record, hforward⟩
  have hread : ∀ p ∈ listed, shape.read? record p = m.get? p := fun p hp =>
    RecordCreator.read?_forward lawful hstart hunset hforward hp
  refine ⟨_, rfl, fun key => ?_, ?_, RecordCreator.forward_decompose lawful hstart hunset record⟩
  · rw [RecordCreator.get?_decompose]
    split
    · rename_i hkey
      exact hread key hkey
    · rename_i hkey
      cases hvalue : m.get? key with
      | none => rfl
      | some value => exact absurd (haccepts key value hvalue).1 hkey
  · rw [RecordCreator.keys_decompose]
    refine List.filter_congr fun p hp => ?_
    rw [hread p (List.mem_dedup.mp hp), Bool.eq_iff_iff, PropertyMap.contains_iff,
      Option.isSome_iff_exists]

end AnyPayloads

open scoped Payloads in
/-- Items made from a list that names a property twice: the map of the second reading follows the
list, not the writes. -/
theorem creator_partially_bijective_items :
    Item.shape.Lawful ["b", "a", "b"] ∧ Item.shape.StartsUnset ["b", "a", "b"] false ⟨0, 4⟩
      ∧ ∃ creator, RecordCreator.new Item.shape ["b", "a", "b"] {} = .ok creator
        ∧ ∃ record m', creator.mapping.forward ⟨0, 4⟩
            (.ofList [("b", .string "y"), ("a", .string "x")]) = .ok record
          ∧ creator.mapping.backward record = some m' ∧ m'.keys = ["a", "b"] := by
  have lawful : Item.shape.Lawful ["b", "a", "b"] := Item.lawful_shape (by simp)
  have starts := Item.startsUnset_shape ["b", "a", "b"] ⟨0, 4⟩
  obtain ⟨creator, hnew, hmaps, -⟩ :=
    creator_partially_bijective Item.shape ["b", "a", "b"] false ⟨0, 4⟩ lawful starts
  obtain ⟨hbuilds, hback⟩ := hmaps (.ofList [("b", .string "y"), ("a", .string "x")])
  obtain ⟨record, hforward⟩ := hbuilds.mpr fun key value hvalue => by
    have hmem : (key, value) ∈ [("b", Value.string "y"), ("a", Value.string "x")] :=
      PropertyMap.get?_eq_some_iff_mem.mp hvalue
    simp only [List.mem_cons, Prod.mk.injEq, List.not_mem_nil, or_false] at hmem
    rcases hmem with ⟨rfl, rfl⟩ | ⟨rfl, rfl⟩
    · exact ⟨by simp, Item.fieldB.accessor, rfl, rfl⟩
    · exact ⟨by simp, Item.fieldA.accessor, rfl, rfl⟩
  obtain ⟨m', hm', -, hkeys, -⟩ := hback record hforward
  exact ⟨lawful, starts, creator, hnew, record, m', hforward, hm', hkeys⟩

end Biparse
