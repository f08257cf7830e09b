import Biparse.Proofs.Record.Lawful
import Mathlib.Logic.Function.Basic

/-!
# Bindings in any order

A builder writes the bindings of a map one after another, in the order of the map. Where setters of
different properties commute (`Accessor.AllCommute`) that order is immaterial: a map binds no name
twice, so two neighbouring bindings can trade places (`Takes.swap`), and any order is reached from
any other by such trades (`writeAll_perm`). Which failure is reported does depend on the order: it
is the first one met.

The setters of a shape of optional fields commute as soon as writes to different fields do, which is
so for fields that are slots of the record (`Row`).
-/

namespace Biparse

section AnyPayloads

variable [Payloads] {R : Type}

/-! ## Commuting setters -/

/-- Two values written in either order give the same record, or fail in both orders. -/
def Accessor.Commutes (accessor other : Accessor R) : Prop :=
  ∀ record v w,
    (accessor.write record v >>= fun record' => other.write record' w).toOption
      = (other.write record w >>= fun record' => accessor.write record' v).toOption

/-- The setters of any two different properties commute. -/
def Accessor.AllCommute (accessors : SortedMap (Accessor R)) : Prop :=
  ∀ p q, p ≠ q → ∀ accessor other, accessors.get? p = some accessor →
    accessors.get? q = some other → accessor.Commutes other

theorem Accessor.Commutes.exists_swapped {accessor other : Accessor R}
    (h : accessor.Commutes other) {record middle result : R} {v w : Value}
    (hfirst : accessor.write record v = .ok middle) (hsecond : other.write middle w = .ok result) :
    ∃ middle', other.write record w = .ok middle' ∧ accessor.write middle' v = .ok result := by
  have hresult : (accessor.write record v >>= fun record' => other.write record' w).toOption
      = some result :=
    toOption_eq_some_iff.mpr (bind_eq_ok_iff.mpr ⟨middle, hfirst, hsecond⟩)
  rw [h record v w] at hresult
  exact bind_eq_ok_iff.mp (toOption_eq_some_iff.mp hresult)

theorem Accessor.AllCommute.filterKeys {accessors : SortedMap (Accessor R)}
    (h : AllCommute accessors) (keep : String → Bool) : AllCommute (accessors.filterKeys keep) := by
  intro p q hne accessor other haccessor hother
  rw [SortedMap.get?_filterKeys, Option.ite_none_right_eq_some] at haccessor hother
  exact h p q hne accessor other haccessor.2 hother.2

/-! ## Trading places -/

namespace RecordBuilder

variable {builder : RecordBuilder R} {context : Span} {record middle result : R}
  {first second : String × Value} {entries entries' : List (String × Value)}
  {own own' warnings : List Diagnostic}

/-- Bindings of two names can be taken the other way round, each with its own warnings. -/
theorem Takes.swap (hcommute : Accessor.AllCommute builder.setters) (hne : first.1 ≠ second.1)
    (hfirst : builder.Takes context record first middle own)
    (hsecond : builder.Takes context middle second result own') :
    ∃ middle', builder.Takes context record second middle' own'
      ∧ builder.Takes context middle' first result own := by
  cases hfirst with
  | skipped hnone hskip =>
      -- the record the second binding met is the one that both start from
      cases hsecond with
      | skipped hnone' hskip' => exact ⟨record, .skipped hnone' hskip', .skipped hnone hskip⟩
      | written hsome hwrite => exact ⟨result, .written hsome hwrite, .skipped hnone hskip⟩
  | written hsome hwrite =>
      cases hsecond with
      | skipped hnone hskip => exact ⟨record, .skipped hnone hskip, .written hsome hwrite⟩
      | written hsome' hwrite' =>
          have hpair := hcommute first.1 second.1 hne _ _ hsome hsome'
          obtain ⟨middle', hother, hlast⟩ := hpair.exists_swapped hwrite hwrite'
          exact ⟨middle', .written hsome' hother, .written hsome hlast⟩

/-- Writing a list of different names goes through in any order, to the same record. -/
theorem writeAll_perm (hcommute : Accessor.AllCommute builder.setters)
    (hperm : entries.Perm entries') :
    (entries.map Prod.fst).Nodup →
      builder.writeAll context record entries = .ok (result, warnings) →
        ∃ warnings', builder.writeAll context record entries' = .ok (result, warnings')
          ∧ warnings.Perm warnings' := by
  induction hperm generalizing record warnings with
  | nil =>
      intro _ hout
      exact ⟨warnings, hout, .refl warnings⟩
  | cons entry _ ih =>
      intro hnodup hout
      rw [List.map_cons, List.nodup_cons] at hnodup
      obtain ⟨record', own, later, htaken, hrest, rfl⟩ := writeAll_cons_eq_ok_iff.mp hout
      obtain ⟨later', hrest', hlater⟩ := ih hnodup.2 hrest
      have hout' := writeAll_cons_eq_ok_iff.mpr ⟨record', own, later', htaken, hrest', rfl⟩
      exact ⟨own ++ later', hout', hlater.append_left own⟩
  | swap second first rest =>
      intro hnodup hout
      have hne : first.1 ≠ second.1 := by
        intro heq
        rw [List.map_cons, List.map_cons, heq, List.nodup_cons] at hnodup
        exact hnodup.1 List.mem_cons_self
      obtain ⟨middle, own, _, htaken, hmore, rfl⟩ := writeAll_cons_eq_ok_iff.mp hout
      obtain ⟨record', own', later, htaken', hrest, rfl⟩ := writeAll_cons_eq_ok_iff.mp hmore
      obtain ⟨middle', hsecond, hfirst⟩ := htaken.swap hcommute hne htaken'
      have hmore' := writeAll_cons_eq_ok_iff.mpr ⟨record', own, later, hfirst, hrest, rfl⟩
      have hout' := writeAll_cons_eq_ok_iff.mpr
        ⟨middle', own', own ++ later, hsecond, hmore', rfl⟩
      refine ⟨own' ++ (own ++ later), hout', ?_⟩
      rw [← List.append_assoc, ← List.append_assoc]
      exact List.perm_append_comm.append_right later
  | trans hfirst _ ih ih' =>
      intro hnodup hout
      obtain ⟨warnings', hout', hwarnings⟩ := ih hnodup hout
      have hnodup' := (hfirst.map Prod.fst).nodup_iff.mp hnodup
      obtain ⟨warnings'', hout'', hwarnings'⟩ := ih' hnodup' hout'
      exact ⟨warnings'', hout'', hwarnings.trans hwarnings'⟩

theorem buildWithWarnings_perm (hcommute : Accessor.AllCommute builder.setters)
    {m m' : PropertyMap Value} (hperm : m.entries.Perm m'.entries)
    (hout : builder.buildWithWarnings context m = .ok (result, warnings)) :
    ∃ warnings', builder.buildWithWarnings context m' = .ok (result, warnings')
      ∧ warnings.Perm warnings' := by
  unfold buildWithWarnings at hout ⊢
  cases hstart : builder.construct context with
  | error complaint => simp [hstart] at hout
  | ok start =>
      rw [hstart] at hout
      exact writeAll_perm hcommute hperm m.nodup hout

theorem build_eq_ok_iff_exists_warnings {m : PropertyMap Value} :
    builder.build context m = .ok result ↔
      ∃ warnings, builder.buildWithWarnings context m = .ok (result, warnings) := by
  unfold build
  cases builder.buildWithWarnings context m with
  | error failure => simp [Except.map]
  | ok out => simp [Except.map, Prod.ext_iff]

theorem build_perm (hcommute : Accessor.AllCommute builder.setters)
    {m m' : PropertyMap Value} (hperm : m.entries.Perm m'.entries)
    (hbuild : builder.build context m = .ok result) : builder.build context m' = .ok result := by
  obtain ⟨warnings, hout⟩ := build_eq_ok_iff_exists_warnings.mp hbuild
  obtain ⟨warnings', hout', -⟩ := buildWithWarnings_perm hcommute hperm hout
  exact build_eq_ok_iff_exists_warnings.mpr ⟨warnings', hout'⟩

end RecordBuilder

/-! ## Fields that are slots -/

/-- Writes to fields of different names commute. -/
def OptionalField.Apart (fields : List (OptionalField R)) : Prop :=
  ∀ field ∈ fields, ∀ other ∈ fields, field.name ≠ other.name → ∀ record payload payload',
    other.set (field.set record payload) payload' = field.set (other.set record payload') payload

theorem OptionalField.commutes_accessor {field other : OptionalField R}
    (h : ∀ record payload payload', other.set (field.set record payload) payload'
      = field.set (other.set record payload') payload) :
    field.accessor.Commutes other.accessor := by
  intro record v w
  unfold Accessor.write accessor
  cases v.downcast? field.ty with
  | none =>
      cases w.downcast? other.ty <;> rfl
  | some payload =>
      cases w.downcast? other.ty with
      | none => rfl
      | some payload' =>
          exact congrArg some (h record payload payload')

theorem RecordShape.allCommute_ofFields {fields : List (OptionalField R)}
    (hinj : OptionalField.NamesInjective fields) (hapart : OptionalField.Apart fields)
    (name : String) (blank : R) : Accessor.AllCommute (ofFields name blank fields).accessors := by
  intro p q hne accessor other haccessor hother
  obtain ⟨field, hfield, rfl, rfl⟩ := (accessor?_ofFields hinj name blank).mp haccessor
  obtain ⟨field', hfield', rfl, rfl⟩ := (accessor?_ofFields hinj name blank).mp hother
  exact OptionalField.commutes_accessor (hapart field hfield field' hfield' hne)

/-- A record with an optional slot for each name, and whatever else it holds. -/
structure Row (columns : String → Ty) (Rest : Type) where
  slots : (name : String) → Option (columns name).Carrier
  rest : Rest

namespace Row

variable {columns : String → Ty} {Rest : Type}

/-- The slot of a name as a field. -/
def field (name : String) : OptionalField (Row columns Rest) where
  name := name
  ty := columns name
  set row payload := { row with slots := Function.update row.slots name (some payload) }
  get row := row.slots name

/-- The rows made as `blank` and accessed by the slots of the listed names. -/
def shape (record : String) (blank : Row columns Rest) (listed : List String) :
    RecordShape (Row columns Rest) :=
  .ofFields record blank (listed.map field)

theorem set_comm {name name' : String} (hne : name ≠ name') (row : Row columns Rest)
    (payload : (columns name).Carrier) (payload' : (columns name').Carrier) :
    (field name').set ((field name).set row payload) payload'
      = (field name).set ((field name').set row payload') payload := by
  have hslots := Function.update_comm hne (some payload) (some payload') row.slots
  exact congrArg (fun slots => Row.mk slots row.rest) hslots

theorem namesInjective_fields (listed : List String) :
    OptionalField.NamesInjective (listed.map (field : String → OptionalField (Row columns Rest))) := by
  intro f hf other hother hname
  obtain ⟨name, -, rfl⟩ := List.mem_map.mp hf
  obtain ⟨name', -, rfl⟩ := List.mem_map.mp hother
  exact congrArg field hname

theorem apart_fields (listed : List String) :
    OptionalField.Apart (listed.map (field : String → OptionalField (Row columns Rest))) := by
  intro f hf other hother hne
  obtain ⟨name, -, rfl⟩ := List.mem_map.mp hf
  obtain ⟨name', -, rfl⟩ := List.mem_map.mp hother
  exact set_comm hne

end Row

theorem Tag.allCommute_shape : Accessor.AllCommute shape.accessors := by
  refine RecordShape.allCommute_ofFields ?_ ?_ _ _
  · simp [OptionalField.NamesInjective]
  · simp [OptionalField.Apart]

theorem Item.allCommute_shape : Accessor.AllCommute shape.accessors := by
  refine RecordShape.allCommute_ofFields independent_fields.names_inj ?_ _ _
  simp [OptionalField.Apart, fieldA, fieldB]

theorem Mixed.allCommute_shape (record : String) :
    Accessor.AllCommute (shape record).accessors := by
  refine RecordShape.allCommute_ofFields ?_ ?_ _ _
  · simp [OptionalField.NamesInjective]
  · simp [OptionalField.Apart]

/-! ## Any order -/

/-- Records of slots have commuting setters, and so have tags, items and mixed records. Where
setters commute, two maps with the same bindings in any two orders build the same record or both
fail, on either path and under either policy, and the builds that go through warn of the same names.
This holds of a builder that knows all properties of the shape and of one that knows only some. -/
theorem bindings_in_any_order :
    (∀ (columns : String → Ty) (Rest : Type) (record : String) (blank : Row columns Rest)
      (listed : List String), Accessor.AllCommute (Row.shape record blank listed).accessors)
    ∧ (Accessor.AllCommute Tag.shape.accessors ∧ Accessor.AllCommute Item.shape.accessors
      ∧ ∀ record : String, Accessor.AllCommute (Mixed.shape record).accessors)
    ∧ ∀ (R : Type) (shape : RecordShape R), Accessor.AllCommute shape.accessors →
      ∀ config keep builder, RecordBuilder.restricted shape config keep = .ok builder →
        ∀ context (m m' : PropertyMap Value), m.entries.Perm m'.entries →
          (∀ record, builder.build context m = .ok record ↔ builder.build context m' = .ok record)
          ∧ ∀ record warnings, builder.buildWithWarnings context m = .ok (record, warnings) →
            ∃ warnings', builder.buildWithWarnings context m' = .ok (record, warnings')
              ∧ warnings.Perm warnings' := by
  refine ⟨?_, ⟨Tag.allCommute_shape, Item.allCommute_shape, Mixed.allCommute_shape⟩, ?_⟩
  · intro columns Rest record blank listed
    exact RecordShape.allCommute_ofFields (Row.namesInjective_fields listed)
      (Row.apart_fields listed) record blank
  · intro R shape hcommute config keep builder hbuilder context m m' hperm
    obtain ⟨make, -, rfl⟩ := RecordBuilder.restricted_eq_ok_iff.mp hbuilder
    have hsetters := hcommute.filterKeys keep
    refine ⟨fun record => ⟨?_, ?_⟩, ?_⟩
    · exact RecordBuilder.build_perm hsetters hperm
    · exact RecordBuilder.build_perm hsetters hperm.symm
    · intro record warnings hout
      exact RecordBuilder.buildWithWarnings_perm hsetters hperm hout

end AnyPayloads

open scoped Payloads in
/-- Items from two maps that bind two known and two unknown names, one of them the other way round
from the other. -/
theorem bindings_in_any_order_item :
    ∃ builder warnings,
      RecordBuilder.new Item.shape ⟨false, .skip⟩ = .ok builder
      ∧ builder.buildWithWarnings ⟨3, 8⟩
          (.ofList [("b", .string "y"), ("d", .int 1), ("a", .string "x"), ("c", .tag ⟨none⟩)])
        = .ok (⟨some "x", some "y"⟩, warnings)
      ∧ (["c", "d"].map (builder.skipped ⟨3, 8⟩)).Perm warnings := by
  obtain ⟨-, ⟨-, hcommute, -⟩, hbuilds⟩ := bindings_in_any_order
  obtain ⟨-, hwarnings⟩ := hbuilds Item Item.shape hcommute ⟨false, .skip⟩ (fun _ => true) _ rfl
    ⟨3, 8⟩ (.ofList [("c", .tag ⟨none⟩), ("a", .string "x"), ("d", .int 1), ("b", .string "y")])
    (.ofList [("b", .string "y"), ("d", .int 1), ("a", .string "x"), ("c", .tag ⟨none⟩)])
    (List.reverse_perm _).symm
  obtain ⟨warnings, hout, hperm⟩ := hwarnings _ _ rfl
  exact ⟨_, warnings, rfl, hout, hperm⟩

end Biparse
