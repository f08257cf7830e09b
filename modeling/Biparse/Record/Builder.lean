import Biparse.Component
import Biparse.PropertyMap.Basic
import Biparse.Record.Shape

/-!
# Building records

A builder makes a record and then writes the bindings of a property map to it in map order. What
happens to a name without a setter is a matter of policy: the build fails, or the name is skipped
with a warning. Building has no inverse, for which writes made a record cannot be read off it.
-/

namespace Biparse

/-- What to do with a property that has no setter. -/
inductive UnknownPolicy where
  | reject
  | skip
deriving Repr, DecidableEq

/-- How a builder is to work: plainly and strictly, unless said otherwise. -/
structure BuilderConfig where
  withContext : Bool := false
  unknown : UnknownPolicy := .reject
deriving Repr, DecidableEq

variable [Payloads]

/-- Makes records from property maps. -/
structure RecordBuilder (R : Type) where
  record : String
  construct : Span → Except String R
  setters : SortedMap (Accessor R)
  unknown : UnknownPolicy

namespace RecordBuilder

variable {R : Type}

/-- A builder that knows the properties whose name passes a test. -/
def restricted (shape : RecordShape R) (config : BuilderConfig) (keep : String → Bool) :
    Except ConfigError (RecordBuilder R) :=
  (shape.constructor config.withContext).map fun construct =>
    ⟨shape.name, construct, shape.accessors.filterKeys keep, config.unknown⟩

/-- A builder that knows every property of the shape. -/
def new (shape : RecordShape R) (config : BuilderConfig) : Except ConfigError (RecordBuilder R) :=
  restricted shape config fun _ => true

theorem restricted_eq_ok_iff {shape : RecordShape R} {config : BuilderConfig}
    {keep : String → Bool} {builder : RecordBuilder R} :
    restricted shape config keep = .ok builder ↔
      ∃ make, shape.constructor config.withContext = .ok make
        ∧ ⟨shape.name, make, shape.accessors.filterKeys keep, config.unknown⟩ = builder := by
  unfold restricted
  cases shape.constructor config.withContext <;> simp [Except.map]

/-- The warning about a skipped property. -/
def skipped (builder : RecordBuilder R) (context : Span) (property : String) : Diagnostic :=
  .ofCode .warn .unknownProperty
    ("skipped unknown property \x60" ++ property ++ "\x60 of " ++ builder.record)
    (some context) [("record", builder.record), ("property", property)]

/-- Writes bindings to a record one after another and collects the warnings. -/
def writeAll (builder : RecordBuilder R) (context : Span) :
    R → List (String × Value) → Except BuildError (R × List Diagnostic)
  | record, [] => .ok (record, [])
  | record, (property, value) :: rest =>
    match builder.setters.get? property with
    | none =>
      match builder.unknown with
      | .reject => .error (.unknownProperty builder.record property)
      | .skip => do
        let (record, warnings) ← writeAll builder context record rest
        return (record, builder.skipped context property :: warnings)
    | some accessor =>
      match accessor.write record value with
      | .error failure => .error (failure.toBuildError builder.record property)
      | .ok record => writeAll builder context record rest

/-- A binding is taken: the setter of its name takes the value, or the name has no setter and is
skipped with a warning. -/
inductive Takes (builder : RecordBuilder R) (context : Span) (record : R)
    (entry : String × Value) : R → List Diagnostic → Prop
  | written {accessor : Accessor R} {record' : R}
    (hsetter : builder.setters.get? entry.1 = some accessor)
    (hwrite : accessor.write record entry.2 = .ok record') :
    Takes builder context record entry record' []
  | skipped (hsetter : builder.setters.get? entry.1 = none) (hskip : builder.unknown = .skip) :
    Takes builder context record entry record [builder.skipped context entry.1]

theorem writeAll_nil_eq_ok_iff {builder : RecordBuilder R} {context : Span} {record result : R}
    {warnings : List Diagnostic} :
    builder.writeAll context record [] = .ok (result, warnings) ↔
      record = result ∧ [] = warnings := by
  rw [writeAll, Except.ok.injEq, Prod.mk.injEq]

/-- Writing goes through when the first binding is taken and writing goes on from there. -/
theorem writeAll_cons_eq_ok_iff {builder : RecordBuilder R} {context : Span} {record result : R}
    {entry : String × Value} {rest : List (String × Value)} {warnings : List Diagnostic} :
    builder.writeAll context record (entry :: rest) = .ok (result, warnings) ↔
      ∃ record' own later, builder.Takes context record entry record' own
        ∧ builder.writeAll context record' rest = .ok (result, later)
        ∧ own ++ later = warnings := by
  obtain ⟨key, value⟩ := entry
  rw [writeAll]
  constructor
  · intro h
    cases hsetter : builder.setters.get? key with
    | some accessor =>
      rw [hsetter] at h
      cases hwrite : accessor.write record value with
      | error failure => simp [hwrite] at h
      | ok record' =>
        simp only [hwrite] at h
        exact ⟨record', [], warnings, .written hsetter hwrite, h, rfl⟩
    | none =>
      rw [hsetter] at h
      cases hunknown : builder.unknown with
      | reject => simp [hunknown] at h
      | skip =>
        simp only [hunknown, bind_eq_ok_iff] at h
        obtain ⟨out, hrest, hout⟩ := h
        obtain ⟨rfl, rfl⟩ := Prod.mk.inj (Except.ok.inj hout)
        exact ⟨record, _, out.2, .skipped hsetter hunknown, hrest, rfl⟩
  · rintro ⟨record', own, later, htaken, hrest, rfl⟩
    cases htaken with
    | written hsetter hwrite =>
      rw [hsetter]
      simp only [hwrite]
      exact hrest
    | skipped hsetter hskip =>
      rw [hsetter]
      simp only [hskip]
      rw [hrest]
      rfl

/-- Makes a record and writes every binding, with the warnings about skipped ones. -/
def buildWithWarnings (builder : RecordBuilder R) (context : Span)
    (properties : PropertyMap Value) : Except BuildError (R × List Diagnostic) :=
  match builder.construct context with
  | .error complaint => .error (.constructor builder.record complaint)
  | .ok record => builder.writeAll context record properties.entries

/-- Makes a record and writes every binding. -/
def build (builder : RecordBuilder R) (context : Span) (properties : PropertyMap Value) :
    Except BuildError R :=
  (builder.buildWithWarnings context properties).map Prod.fst

/-- Building as a component; it takes no record apart. -/
def mapping (builder : RecordBuilder R) : Mapping (PropertyMap Value) R where
  forward context properties := (builder.build context properties).mapError .build
  backward _ := none

end RecordBuilder

end Biparse
