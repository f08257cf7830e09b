import Biparse.Proofs.PropertyMap.Recency
import Biparse.Record.Builder
import Biparse.Record.Sample

/-!
# Lawful shapes

On a shape whose listed properties are independent of each other (`RecordShape.Lawful`) building is
as good as the map: a map is built exactly when all its names are listed and all its values are of
the right types (`RecordBuilder.build_isOk_iff`), and the record then reads back every value
(`RecordBuilder.read?_build`).

Shapes of optional fields are lawful as soon as their fields are (`OptionalField.Independent`).
-/

namespace Biparse

variable [Payloads]

/-! ## Lawful shapes -/

/-- Reads a property of a record as a value, if there is such a property and it is set. -/
def RecordShape.read? {R : Type} (shape : RecordShape R) (record : R) (property : String) :
    Option Value :=
  (shape.accessor? property).bind fun accessor => accessor.read record

/-- The listed properties of a shape are registered and independent: each takes every payload of
its type, then reads as that payload, and leaves the others as they are. -/
structure RecordShape.Lawful {R : Type} (shape : RecordShape R) (listed : List String) : Prop where
  registered : ∀ p ∈ listed, ∃ accessor, shape.accessor? p = some accessor
  set_ok : ∀ p ∈ listed, ∀ accessor, shape.accessor? p = some accessor →
    ∀ record payload, ∃ record', accessor.set record payload = .ok record'
  get_set : ∀ p ∈ listed, ∀ accessor, shape.accessor? p = some accessor →
    ∀ record payload record', accessor.set record payload = .ok record' →
      accessor.get record' = some payload
  get_set_other : ∀ p ∈ listed, ∀ q ∈ listed, q ≠ p → ∀ accessor other,
    shape.accessor? p = some accessor → shape.accessor? q = some other →
      ∀ record payload record', accessor.set record payload = .ok record' →
        other.get record' = other.get record

/-- The constructor of a path makes a record at a place, with every listed property unset. -/
def RecordShape.StartsUnset {R : Type} (shape : RecordShape R) (listed : List String)
    (withContext : Bool) (context : Span) : Prop :=
  ∃ make start, shape.constructor withContext = .ok make ∧ make context = .ok start
    ∧ ∀ p ∈ listed, shape.read? start p = none

/-- A binding that a creator for the listed properties accepts. -/
def RecordShape.Accepts {R : Type} (shape : RecordShape R) (listed : List String) (key : String)
    (value : Value) : Prop :=
  key ∈ listed ∧ ∃ accessor, shape.accessor? key = some accessor ∧ value.ty = accessor.ty

theorem RecordShape.mem_properties_iff {R : Type} {shape : RecordShape R} {p : String} :
    p ∈ shape.properties ↔ ∃ accessor, shape.accessor? p = some accessor := by
  rw [properties, accessor?, ← Option.isSome_iff_exists, ← SortedMap.contains_eq_isSome_get?]
  simp [SortedMap.keys, SortedMap.contains]

namespace RecordShape.Lawful

variable {R : Type} {shape : RecordShape R} {listed : List String} {p : String}
  {accessor : Accessor R}

/-! ### One write -/

/-- Writing goes through exactly for values of the property's type. -/
theorem write_isOk_iff (lawful : shape.Lawful listed) (hp : p ∈ listed)
    (haccessor : shape.accessor? p = some accessor) (record : R) (v : Value) :
    (∃ record', accessor.write record v = .ok record') ↔ v.ty = accessor.ty := by
  simp only [Accessor.write_eq_ok_iff, Value.ty_eq_iff]
  constructor
  · rintro ⟨_, payload, rfl, -⟩
    exact ⟨payload, rfl⟩
  · rintro ⟨payload, rfl⟩
    obtain ⟨record', hset⟩ := lawful.set_ok p hp accessor haccessor record payload
    exact ⟨record', payload, rfl, hset⟩

/-- After a write the property reads as the value, and the other ones as before. -/
theorem read?_write (lawful : shape.Lawful listed) (hp : p ∈ listed)
    (haccessor : shape.accessor? p = some accessor) {record record' : R} {v : Value}
    (hwrite : accessor.write record v = .ok record') {q : String} (hq : q ∈ listed) :
    shape.read? record' q = if q = p then some v else shape.read? record q := by
  obtain ⟨payload, rfl, hset⟩ := Accessor.write_eq_ok_iff.mp hwrite
  split
  · rename_i heq
    subst heq
    have hget := lawful.get_set q hp accessor haccessor record payload record' hset
    simp [RecordShape.read?, haccessor, Accessor.read, hget]
  · rename_i hne
    obtain ⟨other, hother⟩ := lawful.registered q hq
    have hget := lawful.get_set_other p hp q hq hne accessor other haccessor hother record payload
      record' hset
    simp [RecordShape.read?, hother, Accessor.read, hget]

end RecordShape.Lawful

/-! ## All writes of a map -/

namespace RecordBuilder

variable {R : Type} {shape : RecordShape R} {listed : List String} {builder : RecordBuilder R}

/-- The builder of all properties of a shape. -/
def ofShape (shape : RecordShape R) (make : Span → Except String R) (unknown : UnknownPolicy) :
    RecordBuilder R := ⟨shape.name, make, shape.accessors.filterKeys fun _ => true, unknown⟩

theorem new_eq_ok_iff {config : BuilderConfig} :
    RecordBuilder.new shape config = .ok builder ↔
      ∃ make, shape.constructor config.withContext = .ok make
        ∧ ofShape shape make config.unknown = builder := restricted_eq_ok_iff

@[simp] theorem get?_setters_ofShape (shape : RecordShape R) (make : Span → Except String R)
    (unknown : UnknownPolicy) (p : String) :
    (ofShape shape make unknown).setters.get? p = shape.accessor? p := by
  simp [ofShape, SortedMap.get?_filterKeys, RecordShape.accessor?]

/-- A builder that knows the listed properties of a shape and rejects all others. -/
structure RejectsAllBut (builder : RecordBuilder R) (shape : RecordShape R) (listed : List String) :
    Prop where
  get?_setters : ∀ p, builder.setters.get? p = if p ∈ listed then shape.accessor? p else none
  unknown_eq : builder.unknown = .reject

/-- Writing entries goes through exactly when each one is accepted. -/
theorem writeAll_isOk_iff (lawful : shape.Lawful listed)
    (hbuilder : builder.RejectsAllBut shape listed) (context : Span) (record : R)
    (entries : List (String × Value)) :
    (∃ out, builder.writeAll context record entries = .ok out) ↔
      ∀ entry ∈ entries, shape.Accepts listed entry.1 entry.2 := by
  induction entries generalizing record with
  | nil => simp [writeAll]
  | cons entry rest ih =>
      obtain ⟨key, value⟩ := entry
      unfold writeAll
      rw [hbuilder.get?_setters key, hbuilder.unknown_eq]
      by_cases hkey : key ∈ listed
      · obtain ⟨accessor, haccessor⟩ := lawful.registered key hkey
        have hwrite := lawful.write_isOk_iff hkey haccessor record value
        have haccepts : shape.Accepts listed key value ↔ value.ty = accessor.ty := by
          simp [RecordShape.Accepts, hkey, haccessor]
        simp only [if_pos hkey, haccessor, List.forall_mem_cons, haccepts, ← hwrite]
        cases accessor.write record value with
        | error failure => simp
        | ok record' => simpa using ih record'
      · simp [hkey, RecordShape.Accepts]

/-- After all writes each listed property reads as the value it was bound to, and as before if it
was not bound. -/
theorem read?_writeAll (lawful : shape.Lawful listed)
    (hbuilder : builder.RejectsAllBut shape listed) {context : Span} {record : R}
    {entries : List (String × Value)} (hnodup : (entries.map Prod.fst).Nodup)
    {result : R} {warnings : List Diagnostic}
    (hout : builder.writeAll context record entries = .ok (result, warnings)) {p : String}
    (hp : p ∈ listed) :
    shape.read? result p = (entries.lookup p).or (shape.read? record p) := by
  induction entries generalizing record warnings with
  | nil =>
      obtain ⟨rfl, -⟩ := writeAll_nil_eq_ok_iff.mp hout
      rfl
  | cons entry rest ih =>
      rw [List.map_cons, List.nodup_cons] at hnodup
      obtain ⟨record', own, later, htaken, hrest, -⟩ := writeAll_cons_eq_ok_iff.mp hout
      cases htaken with
      | skipped _ hskip =>
          rw [hbuilder.unknown_eq] at hskip
          cases hskip
      | written hsetter hwrite =>
          rw [hbuilder.get?_setters, Option.ite_none_right_eq_some] at hsetter
          obtain ⟨hkey, haccessor⟩ := hsetter
          have hread := lawful.read?_write hkey haccessor hwrite hp
          rw [ih hnodup.2 hrest, hread, List.lookup_cons]
          by_cases hpk : p = entry.1
          · subst hpk
            have hnone : rest.lookup entry.1 = none := by
              rw [List.lookup_eq_none_iff]
              intro other hother
              have hmem : other.1 ∈ rest.map Prod.fst := List.mem_map_of_mem hother
              exact bne_iff_ne.mpr fun heq => hnodup.1 (heq ▸ hmem)
            simp [hnone]
          · simp [hpk, beq_false_of_ne hpk]

/-! ## Building from a map -/

section Build

variable {context : Span} {start record : R} {m : PropertyMap Value}

/-- Once the record is made, building is writing. -/
theorem build_eq_map_writeAll (hstart : builder.construct context = .ok start)
    (m : PropertyMap Value) :
    builder.build context m = (builder.writeAll context start m.entries).map Prod.fst := by
  rw [build, buildWithWarnings, hstart]

theorem build_eq_ok_iff (hstart : builder.construct context = .ok start) :
    builder.build context m = .ok record ↔
      ∃ warnings, builder.writeAll context start m.entries = .ok (record, warnings) := by
  rw [build_eq_map_writeAll hstart]
  cases builder.writeAll context start m.entries with
  | error failure => simp [Except.map]
  | ok out => simp [Except.map, Prod.ext_iff]

theorem build_eq_error_iff (hstart : builder.construct context = .ok start) {e : BuildError} :
    builder.build context m = .error e ↔
      builder.writeAll context start m.entries = .error e := by
  rw [build_eq_map_writeAll hstart]
  cases builder.writeAll context start m.entries <;> simp [Except.map]

theorem forward_eq_ok_iff :
    builder.mapping.forward context m = .ok record ↔ builder.build context m = .ok record :=
  mapError_eq_ok_iff

/-- A map builds exactly when each of its bindings is accepted. -/
theorem build_isOk_iff (lawful : shape.Lawful listed) (hbuilder : builder.RejectsAllBut shape listed)
    (hstart : builder.construct context = .ok start) :
    (∃ record, builder.build context m = .ok record) ↔
      ∀ key value, m.get? key = some value → shape.Accepts listed key value := by
  have hwrites := writeAll_isOk_iff lawful hbuilder context start m.entries
  simp only [build_eq_ok_iff hstart, PropertyMap.get?_eq_some_iff_mem]
  refine Iff.trans ?_ (hwrites.trans ⟨fun h key value => h (key, value), fun h entry => h _ _⟩)
  rw [Prod.exists]

/-- The record reads as the map where that binds a property, and as it was made elsewhere. -/
theorem read?_build (lawful : shape.Lawful listed) (hbuilder : builder.RejectsAllBut shape listed)
    (hstart : builder.construct context = .ok start) (hbuild : builder.build context m = .ok record)
    {p : String} (hp : p ∈ listed) :
    shape.read? record p = (m.get? p).or (shape.read? start p) := by
  obtain ⟨warnings, hwrites⟩ := (build_eq_ok_iff hstart).mp hbuild
  exact read?_writeAll lawful hbuilder m.nodup hwrites hp

end Build

end RecordBuilder

/-! ## Shapes of optional fields -/

/-- No name stands for two fields. A field may well be listed twice. -/
def OptionalField.NamesInjective {R : Type} (fields : List (OptionalField R)) : Prop :=
  ∀ field ∈ fields, ∀ other ∈ fields, other.name = field.name → other = field

/-- Fields that each have a name of their own, read what was last written to them and leave the
other fields as they are. -/
structure OptionalField.Independent {R : Type} (fields : List (OptionalField R)) : Prop where
  names_inj : NamesInjective fields
  get_set : ∀ field ∈ fields, ∀ record payload, field.get (field.set record payload) = some payload
  get_set_other : ∀ field ∈ fields, ∀ other ∈ fields, other.name ≠ field.name →
    ∀ record payload, other.get (field.set record payload) = other.get record

namespace RecordShape

variable {R : Type} {fields : List (OptionalField R)}

theorem accessor?_foldl_withProperty (hinj : OptionalField.NamesInjective fields)
    (start : RecordShape R) (p : String) :
    (fields.foldl (fun shape field => shape.withProperty field.name field.accessor)
        start).accessor? p
      = ((fields.find? (·.name = p)).map OptionalField.accessor).or (start.accessor? p) := by
  induction fields generalizing start with
  | nil => simp
  | cons field rest ih =>
      have hrest : OptionalField.NamesInjective rest :=
        fun f hf other hother => hinj f (.tail _ hf) other (.tail _ hother)
      have hwritten : (start.withProperty field.name field.accessor).accessor? p
          = if p = field.name then some field.accessor else start.accessor? p :=
        SortedMap.get?_insert start.accessors field.name p field.accessor
      rw [List.foldl_cons, ih hrest, hwritten]
      by_cases hp : field.name = p
      · -- a later field of the name replaces this one, and is this one
        cases hlater : rest.find? (·.name = p) with
        | none => simp [hp]
        | some other =>
            have hname : other.name = p := by simpa using List.find?_some hlater
            have hmem := List.mem_of_find?_eq_some hlater
            obtain rfl := hinj field (.head _) other (.tail _ hmem) (hname.trans hp.symm)
            simp [hp]
      · simp [hp, Ne.symm hp]

theorem constructor_foldl_withProperty (start : RecordShape R) (withContext : Bool) :
    (fields.foldl (fun shape field => shape.withProperty field.name field.accessor)
      start).constructor withContext = start.constructor withContext := by
  induction fields generalizing start with
  | nil => rfl
  | cons field rest ih => exact ih (start.withProperty field.name field.accessor)

theorem name_ofFields (name : String) (blank : R) (fields : List (OptionalField R)) :
    (ofFields name blank fields).name = name := by
  have hkeeps : ∀ start : RecordShape R,
      (fields.foldl (fun shape field => shape.withProperty field.name field.accessor) start).name
        = start.name := by
    induction fields with
    | nil => exact fun _ => rfl
    | cons field rest ih => exact fun start => ih (start.withProperty field.name field.accessor)
  exact hkeeps _

/-- The accessors of a shape of optional fields are those of its fields. -/
theorem accessor?_ofFields (hinj : OptionalField.NamesInjective fields) (name : String) (blank : R)
    {p : String} {accessor : Accessor R} :
    (ofFields name blank fields).accessor? p = some accessor ↔
      ∃ field ∈ fields, field.name = p ∧ field.accessor = accessor := by
  have hfind := accessor?_foldl_withProperty hinj ((new name).withPlain (.ok blank)) p
  rw [show ((new name).withPlain (.ok blank)).accessor? p = none from rfl, Option.or_none] at hfind
  unfold ofFields
  rw [hfind, Option.map_eq_some_iff]
  constructor
  · rintro ⟨field, hfield, rfl⟩
    exact ⟨field, List.mem_of_find?_eq_some hfield, by simpa using List.find?_some hfield, rfl⟩
  · rintro ⟨field, hfield, rfl, rfl⟩
    have hfound : (fields.find? (·.name = field.name)).isSome := by
      simpa using ⟨field, hfield, rfl⟩
    obtain ⟨other, hother⟩ := Option.isSome_iff_exists.mp hfound
    have hname : other.name = field.name := by simpa using List.find?_some hother
    obtain rfl := hinj field hfield other (List.mem_of_find?_eq_some hother) hname
    exact ⟨other, hother, rfl⟩

theorem accepts_ofFields_iff (hinj : OptionalField.NamesInjective fields) (name : String)
    (blank : R) {key : String} {value : Value} :
    (ofFields name blank fields).Accepts (fields.map OptionalField.name) key value ↔
      ∃ field ∈ fields, field.name = key ∧ value.ty = field.ty := by
  simp only [Accepts, accessor?_ofFields hinj name blank]
  constructor
  · rintro ⟨-, _, ⟨field, hfield, hname, rfl⟩, hty⟩
    exact ⟨field, hfield, hname, hty⟩
  · rintro ⟨field, hfield, rfl, hty⟩
    exact ⟨List.mem_map_of_mem hfield, _, ⟨field, hfield, rfl, rfl⟩, hty⟩

theorem read?_ofFields (hinj : OptionalField.NamesInjective fields) (name : String) (blank : R)
    {field : OptionalField R} (hfield : field ∈ fields) (record : R) :
    (ofFields name blank fields).read? record field.name
      = (field.get record).map (Value.of field.ty) := by
  have haccessor := (accessor?_ofFields hinj name blank).mpr ⟨field, hfield, rfl, rfl⟩
  rw [read?, haccessor]
  rfl

/-- Independent fields make a lawful shape, whichever of them are listed. -/
theorem lawful_ofFields (h : OptionalField.Independent fields) (name : String) (blank : R)
    {listed : List String} (hlisted : ∀ p ∈ listed, p ∈ fields.map OptionalField.name) :
    (ofFields name blank fields).Lawful listed where
  registered p hp := by
    obtain ⟨field, hfield, rfl⟩ := List.mem_map.mp (hlisted p hp)
    exact ⟨field.accessor,
      (accessor?_ofFields h.names_inj name blank).mpr ⟨field, hfield, rfl, rfl⟩⟩
  set_ok p _ accessor haccessor record payload := by
    obtain ⟨field, -, -, rfl⟩ := (accessor?_ofFields h.names_inj name blank).mp haccessor
    exact ⟨field.set record payload, rfl⟩
  get_set p _ accessor haccessor record payload record' hset := by
    obtain ⟨field, hfield, -, rfl⟩ := (accessor?_ofFields h.names_inj name blank).mp haccessor
    obtain rfl := Except.ok.inj hset
    exact h.get_set field hfield record payload
  get_set_other p _ q _ hne accessor other haccessor hother record payload record' hset := by
    obtain ⟨field, hfield, rfl, rfl⟩ := (accessor?_ofFields h.names_inj name blank).mp haccessor
    obtain ⟨field', hfield', rfl, rfl⟩ := (accessor?_ofFields h.names_inj name blank).mp hother
    obtain rfl := Except.ok.inj hset
    exact h.get_set_other field hfield field' hfield' hne record payload

theorem lawful_ofFields_names (h : OptionalField.Independent fields) (name : String) (blank : R) :
    (ofFields name blank fields).Lawful (fields.map OptionalField.name) :=
  lawful_ofFields h name blank fun _ hp => hp

/-- Records of optional fields start unset if the blank one is. -/
theorem startsUnset_ofFields (hinj : OptionalField.NamesInjective fields) (name : String)
    {blank : R} (hblank : ∀ field ∈ fields, field.get blank = none) (listed : List String)
    (context : Span) : (ofFields name blank fields).StartsUnset listed false context := by
  refine ⟨fun _ => .ok blank, blank, constructor_foldl_withProperty _ false, rfl, fun p _ => ?_⟩
  unfold read?
  cases haccessor : (ofFields name blank fields).accessor? p with
  | none => rfl
  | some accessor =>
      obtain ⟨field, hfield, -, rfl⟩ := (accessor?_ofFields hinj name blank).mp haccessor
      simp [Accessor.read, OptionalField.accessor, hblank field hfield]

end RecordShape

/-! ## Items -/

namespace Item

theorem independent_fields : OptionalField.Independent [fieldA, fieldB] where
  names_inj := by simp [OptionalField.NamesInjective, fieldA, fieldB]
  get_set := by simp [fieldA, fieldB]
  get_set_other := by simp [fieldA, fieldB]

/-- Items are lawful in any listing of their two properties. -/
theorem lawful_shape {listed : List String} (hlisted : ∀ p ∈ listed, p = "a" ∨ p = "b") :
    shape.Lawful listed :=
  RecordShape.lawful_ofFields independent_fields Ty.item.name blank fun p hp => by
    simpa [fieldA, fieldB] using hlisted p hp

theorem startsUnset_shape (listed : List String) (context : Span) :
    shape.StartsUnset listed false context :=
  RecordShape.startsUnset_ofFields independent_fields.names_inj Ty.item.name
    (by simp [fieldA, fieldB, blank]) listed context

end Item

end Biparse
