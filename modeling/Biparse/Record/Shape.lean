import Biparse.Error
import Biparse.SortedMap
import Biparse.Value

/-!
# Record shapes

A shape says how records of a type are made and how each named property is written and read. A
property has one payload type; a value of another type is refused before the setter sees it. There
are two ways to make a record, plainly or from the span being built, and a shape may know either,
both or none. Registering again replaces what was registered before.
-/

namespace Biparse

/-- Why a value was not written to a property. -/
inductive AccessFailure where
  | typeMismatch (expected found : String)
  | rejected (complaint : String)
deriving Repr, DecidableEq

/-- The build error that a failure at a property of a record amounts to. -/
def AccessFailure.toBuildError (record property : String) : AccessFailure → BuildError
  | typeMismatch expected found => .typeMismatch record property expected found
  | rejected complaint => .setter record property complaint

variable [Payloads]

/-- How one property is written and read. -/
structure Accessor (R : Type) where
  ty : Ty
  set : R → ty.Carrier → Except String R
  get : R → Option ty.Carrier

namespace Accessor

variable {R : Type}

/-- Writes a value, if its payload is of the property's type and the setter takes it. -/
def write (accessor : Accessor R) (record : R) (v : Value) : Except AccessFailure R :=
  match v.downcast? accessor.ty with
  | none => .error (.typeMismatch accessor.ty.name v.ty.name)
  | some payload => (accessor.set record payload).mapError .rejected

/-- Reads the property as a value, if it is set. -/
def read (accessor : Accessor R) (record : R) : Option Value :=
  (accessor.get record).map (Value.of accessor.ty)

theorem write_eq_ok_iff {accessor : Accessor R} {record record' : R} {v : Value} :
    accessor.write record v = .ok record' ↔
      ∃ payload, v = .of accessor.ty payload ∧ accessor.set record payload = .ok record' := by
  simp only [← Value.downcast?_eq_some_iff]
  unfold write
  cases v.downcast? accessor.ty with
  | none => simp
  | some payload => simp [mapError_eq_ok_iff]

theorem write_of_ty_ne {accessor : Accessor R} {v : Value} (h : v.ty ≠ accessor.ty) (record : R) :
    accessor.write record v = .error (.typeMismatch accessor.ty.name v.ty.name) := by
  rw [write, Value.downcast?_of_ty_ne h]

end Accessor

/-- How records are made and accessed. -/
structure RecordShape (R : Type) where
  name : String
  plain : Option (Except String R)
  contextual : Option (Span → Except String R)
  accessors : SortedMap (Accessor R)

namespace RecordShape

variable {R : Type}

/-- A shape without constructors and properties. -/
def new (name : String) : RecordShape R := ⟨name, none, none, .empty⟩

/-- Registers the plain constructor. -/
def withPlain (shape : RecordShape R) (make : Except String R) : RecordShape R :=
  { shape with plain := some make }

/-- Registers the constructor that takes the span being built. -/
def withContextual (shape : RecordShape R) (make : Span → Except String R) : RecordShape R :=
  { shape with contextual := some make }

/-- Registers the accessor of a property. -/
def withProperty (shape : RecordShape R) (property : String) (accessor : Accessor R) :
    RecordShape R :=
  { shape with accessors := shape.accessors.insert property accessor }

/-- The names of the properties, in increasing order. -/
def properties (shape : RecordShape R) : List String := shape.accessors.keys

/-- Whether a property is registered. -/
def hasProperty (shape : RecordShape R) (property : String) : Bool :=
  shape.accessors.contains property

/-- The accessor of a property. -/
def accessor? (shape : RecordShape R) (property : String) : Option (Accessor R) :=
  shape.accessors.get? property

/-- How records are made on the path asked for, if the shape knows that path. -/
def constructor (shape : RecordShape R) (withContext : Bool) :
    Except ConfigError (Span → Except String R) :=
  match withContext, shape.plain, shape.contextual with
  | false, some make, _ => .ok fun _ => make
  | true, _, some make => .ok make
  | _, _, _ => .error (.missingConstructor shape.name withContext)

end RecordShape

/-! ## Records of optional fields -/

/-- An optional field of a record. -/
structure OptionalField (R : Type) where
  name : String
  ty : Ty
  set : R → ty.Carrier → R
  get : R → Option ty.Carrier

/-- The accessor of a field, whose setter takes every payload. -/
def OptionalField.accessor {R : Type} (field : OptionalField R) : Accessor R where
  ty := field.ty
  set record payload := .ok (field.set record payload)
  get := field.get

/-- The shape of records made plainly as `blank` and accessed by their optional fields. -/
def RecordShape.ofFields {R : Type} (name : String) (blank : R) (fields : List (OptionalField R)) :
    RecordShape R :=
  fields.foldl (fun shape field => shape.withProperty field.name field.accessor)
    ((RecordShape.new name).withPlain (.ok blank))

end Biparse
