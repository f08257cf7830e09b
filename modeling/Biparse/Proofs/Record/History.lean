import Biparse.Proofs.PropertyMap.Recency
import Biparse.Proofs.Record.Lawful

/-!
# Records from histories of writes

A history of writes makes a property map, and a builder that rejects unknown names makes a record of
the map in one pass, up to the first binding at fault (`writeAll_eq_error_iff`). The map holds the
last writes of the history in the order they were made, so for a shape of optional fields all that
matters about a history is these (`build_from_history`): the record exists when none of them is at
fault, its fields are their payloads, and the earliest of them at fault is the one to blame.
-/

namespace Biparse

section AnyPayloads

variable [Payloads]

namespace RecordBuilder

variable {R : Type} {shape : RecordShape R} {listed : List String} {builder : RecordBuilder R}

/-- What a builder that rejects unknown names has against a binding, whatever the record. -/
def fault? (builder : RecordBuilder R) (binding : String × Value) : Option BuildError :=
  match builder.setters.get? binding.1 with
  | none => some (.unknownProperty builder.record binding.1)
  | some accessor =>
    if binding.2.ty = accessor.ty then none
    else some (.typeMismatch builder.record binding.1 accessor.ty.name binding.2.ty.name)

/-- Writing stops at the first binding at fault. -/
theorem writeAll_eq_error_iff (lawful : shape.Lawful listed)
    (hbuilder : builder.RejectsAllBut shape listed) (context : Span) (record : R)
    (entries : List (String × Value)) {e : BuildError} :
    builder.writeAll context record entries = .error e ↔
      entries.findSome? builder.fault? = some e := by
  induction entries generalizing record with
  | nil => simp [writeAll]
  | cons entry rest ih =>
      obtain ⟨key, value⟩ := entry
      rw [writeAll, List.findSome?_cons]
      cases hsetter : builder.setters.get? key with
      | none => simp [fault?, hsetter, hbuilder.unknown_eq]
      | some accessor =>
          have hlisted : key ∈ listed ∧ shape.accessor? key = some accessor := by
            rw [hbuilder.get?_setters] at hsetter
            simpa using hsetter
          by_cases hty : value.ty = accessor.ty
          · obtain ⟨record', hwrite⟩ :=
              (lawful.write_isOk_iff hlisted.1 hlisted.2 record value).mpr hty
            simpa [fault?, hsetter, hty, hwrite] using ih record'
          · have hwrite := Accessor.write_of_ty_ne hty record
            simp [fault?, hsetter, hty, hwrite, AccessFailure.toBuildError]

end RecordBuilder

/-! ## Builders of optional fields -/

namespace RecordBuilder

variable {R : Type} {name : String} {blank : R} {fields : List (OptionalField R)}

/-- The builder of a shape of optional fields, as it is unless configured otherwise. -/
def ofFields (name : String) (blank : R) (fields : List (OptionalField R)) : RecordBuilder R :=
  ofShape (.ofFields name blank fields) (fun _ => .ok blank) .reject

theorem new_ofFields (name : String) (blank : R) (fields : List (OptionalField R)) :
    RecordBuilder.new (.ofFields name blank fields) {} = .ok (ofFields name blank fields) :=
  new_eq_ok_iff.mpr ⟨_, RecordShape.constructor_foldl_withProperty _ false, rfl⟩

@[simp] theorem record_ofFields (name : String) (blank : R) (fields : List (OptionalField R)) :
    (ofFields name blank fields).record = name := RecordShape.name_ofFields name blank fields

theorem get?_setters_ofFields (hinj : OptionalField.NamesInjective fields) {p : String}
    {accessor : Accessor R} :
    (ofFields name blank fields).setters.get? p = some accessor ↔
      ∃ field ∈ fields, field.name = p ∧ field.accessor = accessor := by
  rw [ofFields, get?_setters_ofShape]
  exact RecordShape.accessor?_ofFields hinj name blank

theorem rejectsAllBut_ofFields (hinj : OptionalField.NamesInjective fields) :
    (ofFields name blank fields).RejectsAllBut (.ofFields name blank fields)
      (fields.map OptionalField.name) where
  get?_setters p := by
    split
    · rw [ofFields, get?_setters_ofShape]
    · rename_i hp
      cases hsetter : (ofFields name blank fields).setters.get? p with
      | none => rfl
      | some accessor =>
          obtain ⟨field, hfield, rfl, -⟩ := (get?_setters_ofFields hinj).mp hsetter
          exact absurd (List.mem_map_of_mem hfield) hp
  unknown_eq := rfl

end RecordBuilder

/-- What is wrong with a value under a name: there is no such field, or the field is of another
type. -/
inductive OptionalField.Refuses {R : Type} (record : String) (fields : List (OptionalField R)) :
    String → Value → BuildError → Prop
  | unknown {key : String} {value : Value} (hkey : ∀ field ∈ fields, field.name ≠ key) :
    Refuses record fields key value (.unknownProperty record key)
  | mismatch {field : OptionalField R} {value : Value} (hfield : field ∈ fields)
    (hty : value.ty ≠ field.ty) :
    Refuses record fields field.name value
      (.typeMismatch record field.name field.ty.name value.ty.name)

namespace RecordBuilder

variable {R : Type} {name : String} {blank : R} {fields : List (OptionalField R)}

theorem fault?_ofFields_eq_some_iff (hinj : OptionalField.NamesInjective fields) {key : String}
    {value : Value} {e : BuildError} :
    (ofFields name blank fields).fault? (key, value) = some e ↔
      OptionalField.Refuses name fields key value e := by
  rw [fault?, record_ofFields]
  cases hsetter : (ofFields name blank fields).setters.get? key with
  | none =>
      have hkey : ∀ field ∈ fields, field.name ≠ key := by
        intro field hfield heq
        have hsome : (ofFields name blank fields).setters.get? key = some field.accessor :=
          (get?_setters_ofFields hinj).mpr ⟨field, hfield, heq, rfl⟩
        rw [hsetter] at hsome
        cases hsome
      simp only [Option.some.injEq]
      constructor
      · rintro rfl
        exact .unknown hkey
      · rintro (_ | ⟨hfield, -⟩)
        · rfl
        · exact absurd rfl (hkey _ hfield)
  | some accessor =>
      obtain ⟨field, hfield, rfl, rfl⟩ := (get?_setters_ofFields hinj).mp hsetter
      constructor
      · intro h
        by_cases hty : value.ty = field.ty
        · simp [OptionalField.accessor, hty] at h
        · obtain rfl : BuildError.typeMismatch name field.name field.ty.name value.ty.name = e := by
            simpa [OptionalField.accessor, hty] using h
          exact .mismatch hfield hty
      · generalize hkey : field.name = key
        rintro (hunknown | ⟨hother, hty⟩)
        · exact absurd hkey (hunknown field hfield)
        · obtain rfl := hinj field hfield _ hother hkey.symm
          simp [OptionalField.accessor, hty]

/-! ### Histories -/

section History

open PropertyMap

variable {history : List (String × Value)} {context : Span}

theorem build_ofList_isOk_iff (independent : OptionalField.Independent fields) :
    (∃ r, (ofFields name blank fields).build context (.ofList history) = .ok r) ↔
      ∀ key ∈ history.map Prod.fst, ∃ field ∈ fields, field.name = key
        ∧ ∃ i payload, LastWrite history i key (.of field.ty payload) := by
  have lawful := RecordShape.lawful_ofFields_names independent name blank
  rw [build_isOk_iff lawful (rejectsAllBut_ofFields independent.names_inj) rfl]
  simp only [RecordShape.accepts_ofFields_iff independent.names_inj]
  constructor
  · intro h key hkey
    obtain ⟨i, value, hlast⟩ := exists_lastWrite_of_mem hkey
    obtain ⟨field, hfield, hname, hty⟩ :=
      h key value (get?_ofList_eq_some_iff_lastWrite.mpr ⟨i, hlast⟩)
    obtain ⟨payload, rfl⟩ := Value.ty_eq_iff.mp hty
    exact ⟨field, hfield, hname, i, payload, hlast⟩
  · intro h key value hvalue
    obtain ⟨i, hlast⟩ := get?_ofList_eq_some_iff_lastWrite.mp hvalue
    obtain ⟨field, hfield, hname, j, payload, hother⟩ := h key hlast.mem
    have hsame : (ofList history).get? key = some (.of field.ty payload) :=
      get?_ofList_eq_some_iff_lastWrite.mpr ⟨j, hother⟩
    rw [hvalue] at hsame
    exact ⟨field, hfield, hname, Value.ty_eq_iff.mpr ⟨payload, Option.some.inj hsame⟩⟩

theorem get_build_ofList (independent : OptionalField.Independent fields)
    (unset : ∀ field ∈ fields, field.get blank = none) {r : R}
    (hbuild : (ofFields name blank fields).build context (.ofList history) = .ok r)
    {field : OptionalField R} (hfield : field ∈ fields) {payload : field.ty.Carrier} :
    field.get r = some payload ↔ ∃ i, LastWrite history i field.name (.of field.ty payload) := by
  have lawful := RecordShape.lawful_ofFields_names independent name blank
  have hread := RecordShape.read?_ofFields independent.names_inj name blank hfield
  have hget := read?_build lawful (rejectsAllBut_ofFields independent.names_inj) rfl hbuild
    (List.mem_map_of_mem hfield)
  rw [hread, hread, unset field hfield, Option.map_none, Option.or_none] at hget
  rw [← get?_ofList_eq_some_iff_lastWrite, ← hget, Option.map_eq_some_iff]
  constructor
  · intro h
    exact ⟨payload, h, rfl⟩
  · rintro ⟨other, h, heq⟩
    rwa [← Value.of_injective field.ty heq]

theorem build_ofList_eq_error_iff (independent : OptionalField.Independent fields)
    {e : BuildError} :
    (ofFields name blank fields).build context (.ofList history) = .error e ↔
      ∃ i key value, LastWrite history i key value ∧ OptionalField.Refuses name fields key value e
        ∧ ∀ j key' value', j < i → LastWrite history j key' value' →
          ∀ e', ¬ OptionalField.Refuses name fields key' value' e' := by
  have lawful := RecordShape.lawful_ofFields_names independent name blank
  rw [build_eq_error_iff (show (ofFields name blank fields).construct context = .ok blank from rfl),
    writeAll_eq_error_iff lawful (rejectsAllBut_ofFields independent.names_inj), entries_ofList,
    findSome?_lastWrites]
  simp only [Option.eq_none_iff_forall_ne_some, ne_eq,
    fault?_ofFields_eq_some_iff independent.names_inj]

end History

end RecordBuilder

/-- Building a record of optional fields from a history of writes. It goes through exactly when the
last write under each name of the history is to a field and of its type; each field is then the
payload last written to it, and unset if there is none. When it does not go through, the error is
about the earliest last write that is at fault. -/
theorem build_from_history {R : Type} (name : String) (blank : R) (fields : List (OptionalField R))
    (independent : OptionalField.Independent fields)
    (unset : ∀ field ∈ fields, field.get blank = none) :
    ∃ builder, RecordBuilder.new (.ofFields name blank fields) {} = .ok builder
      ∧ ∀ context history,
        ((∃ r, builder.build context (.ofList history) = .ok r) ↔
          ∀ key ∈ history.map Prod.fst, ∃ field ∈ fields, field.name = key
            ∧ ∃ i payload, PropertyMap.LastWrite history i key (.of field.ty payload))
        ∧ (∀ r, builder.build context (.ofList history) = .ok r → ∀ field ∈ fields,
          (∀ payload, field.get r = some payload ↔
            ∃ i, PropertyMap.LastWrite history i field.name (.of field.ty payload))
          ∧ (field.name ∉ history.map Prod.fst → field.get r = none))
        ∧ ∀ e, builder.build context (.ofList history) = .error e ↔
          ∃ i key value, PropertyMap.LastWrite history i key value
            ∧ OptionalField.Refuses name fields key value e
            ∧ ∀ j key' value', j < i → PropertyMap.LastWrite history j key' value' →
              ∀ e', ¬ OptionalField.Refuses name fields key' value' e' := by
  refine ⟨_, RecordBuilder.new_ofFields name blank fields, fun context history =>
    ⟨RecordBuilder.build_ofList_isOk_iff independent, fun r hbuild field hfield => ?_,
      fun e => RecordBuilder.build_ofList_eq_error_iff independent⟩⟩
  have hget : ∀ payload, field.get r = some payload ↔
      ∃ i, PropertyMap.LastWrite history i field.name (.of field.ty payload) :=
    fun _ => RecordBuilder.get_build_ofList independent unset hbuild hfield
  refine ⟨hget, fun hkey => ?_⟩
  cases hpayload : field.get r with
  | none => rfl
  | some payload =>
      obtain ⟨i, hlast⟩ := (hget payload).mp hpayload
      exact absurd hlast.mem hkey

end AnyPayloads

open scoped Payloads in
/-- Items from a history in which `a` is mistyped at first, and the unknown `c` is written before
and after the mistyped `b`: it is `b` that is to blame. -/
theorem build_from_history_items :
    OptionalField.Independent [Item.fieldA, Item.fieldB]
      ∧ (∀ field ∈ [Item.fieldA, Item.fieldB], field.get Item.blank = none)
      ∧ ∃ builder, RecordBuilder.new Item.shape {} = .ok builder
        ∧ builder.build ⟨0, 4⟩ (.ofList [("a", .int 5), ("c", .tag ⟨none⟩), ("b", .int 1),
            ("a", .string "x"), ("c", .tag ⟨none⟩)])
          = .error (.typeMismatch Ty.item.name "b" Ty.string.name Ty.int.name) := by
  have unset : ∀ field ∈ [Item.fieldA, Item.fieldB], field.get Item.blank = none := by
    simp [Item.fieldA, Item.fieldB, Item.blank]
  obtain ⟨builder, hnew, hbuilds⟩ :=
    build_from_history Ty.item.name Item.blank _ Item.independent_fields unset
  refine ⟨Item.independent_fields, unset, builder, hnew, ((hbuilds ⟨0, 4⟩ _).2.2 _).mpr ?_⟩
  have hlast : PropertyMap.LastWrite [("a", Value.int 5), ("c", .tag ⟨none⟩), ("b", .int 1),
      ("a", .string "x"), ("c", .tag ⟨none⟩)] 2 "b" (.int 1) := by
    rw [PropertyMap.lastWrite_cons_succ, PropertyMap.lastWrite_cons_succ,
      PropertyMap.lastWrite_cons_zero]
    exact ⟨rfl, by decide⟩
  have hfault : OptionalField.Refuses Ty.item.name [Item.fieldA, Item.fieldB] "b" (.int 1)
      (.typeMismatch Ty.item.name "b" Ty.string.name Ty.int.name) :=
    .mismatch (List.mem_cons_of_mem Item.fieldA (List.mem_singleton_self Item.fieldB)) (by decide)
  refine ⟨2, "b", .int 1, hlast, hfault, ?_⟩
  -- what is written before is written again later
  rintro (_ | _ | j) key value hj hother
  · obtain ⟨heq, hkey⟩ := PropertyMap.lastWrite_cons_zero.mp hother
    obtain ⟨rfl, -⟩ := Prod.mk.inj heq
    exact absurd hkey (by decide)
  · obtain ⟨heq, hkey⟩ :=
      PropertyMap.lastWrite_cons_zero.mp (PropertyMap.lastWrite_cons_succ.mp hother)
    obtain ⟨rfl, -⟩ := Prod.mk.inj heq
    exact absurd hkey (by decide)
  · omega

end Biparse
