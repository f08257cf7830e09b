import Biparse.Record.Builder

/-!
# Creating records from listed properties

A creator is a builder for a list of properties that can also take a record apart: it reads every
listed property and lists those that are set. Other properties of the shape are unknown to it.
-/

namespace Biparse

variable [Payloads]

/-- Makes records from listed properties and takes them apart. -/
structure RecordCreator (R : Type) where
  builder : RecordBuilder R
  getters : List (String × Accessor R)

namespace RecordCreator

variable {R : Type}

/-- The accessors of the listed properties, unless one is not registered; the first such one is
the one to blame. -/
def accessors (shape : RecordShape R) :
    List String → Except ConfigError (List (String × Accessor R))
  | [] => .ok []
  | property :: rest =>
    match shape.accessor? property with
    | none => .error (.missingAccessor shape.name property)
    | some accessor => (accessors shape rest).map ((property, accessor) :: ·)

/-- A creator for the listed properties of a shape. A missing accessor is reported before a missing
constructor. -/
def new (shape : RecordShape R) (listed : List String) (config : BuilderConfig) :
    Except ConfigError (RecordCreator R) := do
  let getters ← accessors shape listed
  let builder ← RecordBuilder.restricted shape config listed.contains
  return ⟨builder, getters⟩

/-- The listed names, as listed. -/
def properties (creator : RecordCreator R) : List String := creator.getters.map Prod.fst

/-- The listed properties that are set, written in list order. -/
def decompose (creator : RecordCreator R) (record : R) : PropertyMap Value :=
  .ofList <| creator.getters.filterMap fun getter =>
    (getter.2.read record).map fun value => (getter.1, value)

/-- Creating as a component; every record can be taken apart. -/
def mapping (creator : RecordCreator R) : Mapping (PropertyMap Value) R where
  forward := creator.builder.mapping.forward
  backward record := some (creator.decompose record)

end RecordCreator

end Biparse
