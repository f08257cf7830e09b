import Biparse.Proofs.Grammar.Items
import Biparse.Proofs.Record.Lawful
import Biparse.Record.Creator

/-!
# Records that keep where they were made

A record can keep the span it was made from, if its shape has a constructor that takes the span and
no setter that touches it (`RecordShape.Locates`). Building writes a map to the record one binding
after another, so the span is still there in the end, whatever the policy for unknown names and
whichever properties are known (`RecordBuilder.location_forward`).

Placed items are such records, and for the rest of it items: they are made from the maps of items
(`PlacedItem.forward_builder_iff`).
-/

namespace Biparse

variable [Payloads]

/-- Records made on the path that takes a span give that span as their location, and no setter
changes it. -/
structure RecordShape.Locates {R : Type} (shape : RecordShape R) (location : R → Span) : Prop where
  made : ∀ make, shape.contextual = some make → ∀ context record, make context = .ok record →
    location record = context
  kept : ∀ p accessor, shape.accessor? p = some accessor → ∀ record payload record',
    accessor.set record payload = .ok record' → location record' = location record

theorem RecordShape.constructor_eq_ok_iff {R : Type} {shape : RecordShape R}
    {make : Span → Except String R} :
    shape.constructor true = .ok make ↔ shape.contextual = some make := by
  unfold RecordShape.constructor
  cases shape.contextual <;> simp

namespace RecordBuilder

variable {R : Type} {shape : RecordShape R} {builder : RecordBuilder R} {location : R → Span}
  {keep : String → Bool} {config : BuilderConfig} {context : Span} {record : R}

theorem location_writeAll
    (hkept : ∀ p accessor, builder.setters.get? p = some accessor → ∀ record payload record',
      accessor.set record payload = .ok record' → location record' = location record)
    {entries : List (String × Value)} {result : R} {warnings : List Diagnostic}
    (hout : builder.writeAll context record entries = .ok (result, warnings)) :
    location result = location record := by
  induction entries generalizing record warnings with
  | nil =>
      obtain ⟨rfl, -⟩ := writeAll_nil_eq_ok_iff.mp hout
      rfl
  | cons entry rest ih =>
      obtain ⟨record', own, later, htaken, hrest, -⟩ := writeAll_cons_eq_ok_iff.mp hout
      rw [ih hrest]
      cases htaken with
      | written hsetter hwrite =>
          obtain ⟨payload, -, hset⟩ := Accessor.write_eq_ok_iff.mp hwrite
          exact hkept entry.1 _ hsetter record payload record' hset
      | skipped _ _ => rfl

/-- A record made on the path that takes a span has the span it was made from, in the end as in the
beginning. -/
theorem location_forward (h : shape.Locates location) (hcontext : config.withContext = true)
    (hbuilder : restricted shape config keep = .ok builder) {m : PropertyMap Value}
    (hforward : builder.mapping.forward context m = .ok record) : location record = context := by
  obtain ⟨make, hmake, hsame⟩ := restricted_eq_ok_iff.mp hbuilder
  rw [hcontext, RecordShape.constructor_eq_ok_iff] at hmake
  have hkept : ∀ p accessor, builder.setters.get? p = some accessor →
      ∀ record payload record', accessor.set record payload = .ok record' →
        location record' = location record := by
    intro p accessor haccessor
    rw [← hsame, SortedMap.get?_filterKeys, Option.ite_none_right_eq_some] at haccessor
    exact h.kept p accessor haccessor.2
  have hconstruct : builder.construct = make := hsame ▸ rfl
  rw [forward_eq_ok_iff] at hforward
  cases hstart : make context with
  | error complaint => simp [build, buildWithWarnings, hconstruct, hstart, Except.map] at hforward
  | ok start =>
      rw [← hconstruct] at hstart
      obtain ⟨warnings, hwrites⟩ := (build_eq_ok_iff hstart).mp hforward
      rw [hconstruct] at hstart
      rw [← h.made make hmake context start hstart]
      exact location_writeAll hkept hwrites

end RecordBuilder

theorem RecordCreator.restricted_of_new {R : Type} {shape : RecordShape R} {listed : List String}
    {config : BuilderConfig} {creator : RecordCreator R}
    (h : RecordCreator.new shape listed config = .ok creator) :
    RecordBuilder.restricted shape config listed.contains = .ok creator.builder := by
  obtain ⟨-, make, hmake, rfl⟩ := RecordCreator.new_eq_ok_iff.mp h
  exact RecordBuilder.restricted_eq_ok_iff.mpr ⟨make, hmake, rfl⟩

/-! ## Placed items -/

namespace PlacedItem

variable {record : String} {listed : List String}

def accessor : Sign → Accessor PlacedItem
  | .plus => accessorA
  | .minus => accessorB

theorem accessor?_eq_some_iff {p : String} {found : Accessor PlacedItem} :
    (shape record).accessor? p = some found ↔
      ∃ sign : Sign, sign.key = p ∧ accessor sign = found := by
  have hlookup : (shape record).accessor? p
      = if p = "b" then some accessorB else if p = "a" then some accessorA else none := by
    unfold shape RecordShape.accessor? RecordShape.withProperty
    rw [SortedMap.get?_insert, SortedMap.get?_insert]
    rfl
  rw [hlookup]
  constructor
  · intro h
    split at h
    · rename_i hp
      exact ⟨.minus, hp.symm, Option.some.inj h⟩
    · obtain ⟨hp, h⟩ := Option.ite_none_right_eq_some.mp h
      exact ⟨.plus, hp.symm, Option.some.inj h⟩
  · rintro ⟨sign, rfl, rfl⟩
    cases sign <;> rfl

theorem accessor?_key (sign : Sign) :
    (shape record).accessor? sign.key = some (accessor sign) :=
  accessor?_eq_some_iff.mpr ⟨sign, rfl, rfl⟩

theorem read?_shape (r : PlacedItem) (sign : Sign) :
    (shape record).read? r sign.key = (r.item.get sign).map .string := by
  cases sign <;> rfl

theorem locates_shape : (shape record).Locates (·.location.span) where
  made make hmake context record hrecord := by
    obtain rfl : (fun context => .ok (blankAt context)) = make := Option.some.inj hmake
    rw [← Except.ok.inj hrecord]
    rfl
  kept p found haccessor record payload record' hset := by
    obtain ⟨sign, -, rfl⟩ := accessor?_eq_some_iff.mp haccessor
    cases sign <;> rw [← Except.ok.inj hset]

theorem lawful_shape (hlisted : Item.ListsBoth listed) : (shape record).Lawful listed where
  registered p hp := by
    obtain ⟨sign, rfl⟩ := (hlisted p).mp hp
    exact ⟨_, accessor?_key sign⟩
  set_ok p hp found haccessor record payload := by
    obtain ⟨sign, -, rfl⟩ := accessor?_eq_some_iff.mp haccessor
    cases sign <;> exact ⟨_, rfl⟩
  get_set p hp found haccessor record payload record' hset := by
    obtain ⟨sign, -, rfl⟩ := accessor?_eq_some_iff.mp haccessor
    cases sign <;> rw [← Except.ok.inj hset] <;> rfl
  get_set_other p hp q hq hne found other haccessor hother record payload record' hset := by
    obtain ⟨sign, rfl, rfl⟩ := accessor?_eq_some_iff.mp haccessor
    obtain ⟨sign', rfl, rfl⟩ := accessor?_eq_some_iff.mp hother
    cases sign <;> cases sign'
    · exact absurd rfl hne
    · rw [← Except.ok.inj hset]
      rfl
    · rw [← Except.ok.inj hset]
      rfl
    · exact absurd rfl hne

def builder (record : String) : RecordBuilder PlacedItem :=
  .ofShape (shape record) (fun context => .ok (blankAt context)) .reject

theorem new_eq_builder :
    RecordBuilder.new (shape record) { withContext := true } = .ok (builder record) :=
  RecordBuilder.new_eq_ok_iff.mpr ⟨_, rfl, rfl⟩

theorem rejectsAllBut_builder (hlisted : Item.ListsBoth listed) :
    (builder record).RejectsAllBut (shape record) listed where
  get?_setters p := by
    rw [builder, RecordBuilder.get?_setters_ofShape]
    split
    · rfl
    · rename_i hp
      rw [Option.eq_none_iff_forall_ne_some]
      intro found hfound
      obtain ⟨sign, rfl, -⟩ := accessor?_eq_some_iff.mp hfound
      exact hp ((hlisted _).mpr ⟨sign, rfl⟩)
  unknown_eq := rfl

/-- A map makes the placed item at the place told whose texts it binds, and no other map does. -/
theorem forward_builder_iff {context : Span} {m : PropertyMap Value} {r : PlacedItem} :
    (builder record).mapping.forward context m = .ok r ↔
      r.item.BoundBy m ∧ r.location.span = context := by
  have lawful : (shape record).Lawful ["a", "b"] := lawful_shape Item.listsBoth
  have hrejects : (builder record).RejectsAllBut (shape record) ["a", "b"] :=
    rejectsAllBut_builder Item.listsBoth
  have hbuilds : (∃ r', (builder record).build context m = .ok r') ↔
      ∀ key value, m.get? key = some value → (shape record).Accepts ["a", "b"] key value :=
    RecordBuilder.build_isOk_iff lawful hrejects rfl
  have hmade : ∀ r', (builder record).mapping.forward context m = .ok r' →
      r'.item.BoundBy m ∧ r'.location.span = context := by
    intro r' hforward
    have hbuild := RecordBuilder.forward_eq_ok_iff.mp hforward
    refine ⟨⟨fun sign => ?_, fun key value hvalue => ?_⟩, ?_⟩
    · have hread := RecordBuilder.read?_build lawful hrejects rfl hbuild
        ((Item.listsBoth sign.key).mpr ⟨sign, rfl⟩)
      rw [read?_shape, read?_shape] at hread
      cases sign <;> simpa [item, blankAt, Item.get] using hread.symm
    · exact (Item.listsBoth key).mp (hbuilds.mp ⟨r', hbuild⟩ key value hvalue).1
    · have hcontext : ({ withContext := true } : BuilderConfig).withContext = true := rfl
      have hlocation :=
        RecordBuilder.location_forward locates_shape hcontext new_eq_builder hforward
      exact hlocation
  refine ⟨hmade r, fun ⟨hbound, hlocation⟩ => ?_⟩
  obtain ⟨r', hbuild⟩ := hbuilds.mpr fun key value hvalue => by
    obtain ⟨sign, rfl⟩ := hbound.only key value hvalue
    rw [hbound.get?, Option.map_eq_some_iff] at hvalue
    obtain ⟨text, -, rfl⟩ := hvalue
    refine ⟨(Item.listsBoth _).mpr ⟨sign, rfl⟩, accessor sign, accessor?_key sign, ?_⟩
    cases sign <;> rfl
  rw [← RecordBuilder.forward_eq_ok_iff] at hbuild
  obtain ⟨hbound', hlocation'⟩ := hmade r' hbuild
  obtain rfl : r' = r := by
    obtain ⟨⟨span⟩, a, b⟩ := r
    obtain ⟨⟨span'⟩, a', b'⟩ := r'
    obtain ⟨rfl, rfl⟩ := Item.mk.inj (hbound'.unique hbound)
    obtain rfl : span' = span := hlocation'.trans hlocation.symm
    rfl
  exact hbuild

end PlacedItem

end Biparse
