import Biparse.Program.Basic
import Biparse.Record.Creator

/-!
# Programs over record makers

A builder or a creator is made from a shape, and steps then ask it to build records and to take them
apart. Steps have no effect on each other.
-/

namespace Biparse.Program.OnRecords

variable [Payloads]

/-- A builder or a creator. -/
inductive Maker (R : Type) where
  | builder (builder : RecordBuilder R)
  | creator (creator : RecordCreator R)

namespace Maker

variable {R : Type}

/-- A builder of a shape, or a creator of listed properties of it. -/
def new (shape : RecordShape R) (listed : Option (List String)) (config : BuilderConfig) :
    Except ConfigError (Maker R) :=
  match listed with
  | none => (RecordBuilder.new shape config).map .builder
  | some listed => (RecordCreator.new shape listed config).map .creator

/-- The builder underneath. -/
def toBuilder : Maker R → RecordBuilder R
  | builder b => b
  | creator c => c.builder

/-- The component. -/
def mapping : Maker R → Mapping (PropertyMap Value) R
  | builder b => b.mapping
  | creator c => c.mapping

/-- The listed properties; a builder lists none. -/
def listed : Maker R → List String
  | builder _ => []
  | creator c => c.properties

end Maker

/-- An action; maps are given as writes in order. -/
inductive Action (R : Type) where
  | has (property : String)
  | listed
  | build (writes : List (String × Value))
  | diagnose (writes : List (String × Value))
  | forward (writes : List (String × Value))
  | backward (record : R)
  | roundTrip (writes : List (String × Value))

/-- An answer. -/
inductive Answer (R : Type) where
  | truth (b : Bool)
  | names (names : List String)
  | built (result : Except Error R)
  | diagnosed (result : Except Error (R × List Diagnostic))
  | decomposed (map : Option (PropertyMap Value))
  | roundTripped (record : R) (back : Option (PropertyMap Value))
      (again : Option (Except Error R))

variable {R : Type}

/-- Performs an action. -/
def perform (shape : RecordShape R) (maker : Maker R) (context : Span) : Action R → Answer R
  | .has property => .truth (shape.hasProperty property)
  | .listed => .names maker.listed
  | .build writes =>
    .built ((maker.toBuilder.build context (.ofList writes)).mapError .build)
  | .diagnose writes =>
    .diagnosed ((maker.toBuilder.buildWithWarnings context (.ofList writes)).mapError .build)
  | .forward writes => .built (maker.mapping.forward context (.ofList writes))
  | .backward record => .decomposed (maker.mapping.backward record)
  | .roundTrip writes =>
    match maker.mapping.forward context (.ofList writes) with
    | .error e => .built (.error e)
    | .ok record =>
      let back := maker.mapping.backward record
      .roundTripped record back (back.map (maker.mapping.forward context))

/-- Takes one step. -/
def step (shape : RecordShape R) (maker : Maker R) (step : Step (Action R)) :
    Reply Unit (Answer R) :=
  match step.resolve with
  | .error e => .inverted e
  | .ok (context, action) => .answer context (perform shape maker context action)

end Biparse.Program.OnRecords
