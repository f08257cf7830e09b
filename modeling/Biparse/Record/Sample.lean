import Biparse.Record.Shape
import Biparse.Source.Location
import Biparse.Value

/-!
# Sample shapes

Shapes of records of optional fields, and of items that remember where they were read.
-/

namespace Biparse

namespace Payloads

/-- No types of payloads but those of this library, for cases worked out in full. -/
scoped instance none : Payloads where
  Code := Empty
  decEq := inferInstance
  Carrier := nofun
  name
    | .flat .string => "text"
    | .flat .int => "integer"
    | .flat .ints => "sequence of integers"
    | .flat .tag => "tag"
    | .flat .item => "item"
    | .held => "value"

end Payloads

variable [Payloads]

/-! ## Optional fields -/

namespace Tag

/-- The text of a one-text record. -/
def field : OptionalField Tag where
  name := "a"
  ty := .string
  set _ payload := ⟨some payload⟩
  get tag := tag.a

/-- One-text records with their property. -/
def shape : RecordShape Tag := .ofFields Ty.tag.name ⟨none⟩ [field]

end Tag

namespace Item

/-- The unset item. -/
def blank : Item := ⟨none, none⟩

/-- The first text of an item. -/
def fieldA : OptionalField Item where
  name := "a"
  ty := .string
  set item payload := { item with a := some payload }
  get item := item.a

/-- The second text of an item. -/
def fieldB : OptionalField Item where
  name := "b"
  ty := .string
  set item payload := { item with b := some payload }
  get item := item.b

/-- Items with both their properties. -/
def shape : RecordShape Item := .ofFields Ty.item.name blank [fieldA, fieldB]

/-- Items with no properties. -/
def bareShape : RecordShape Item := .ofFields Ty.item.name blank []

end Item

/-- A record with an optional property of each of four types. -/
structure Mixed where
  s : Option String
  n : Option Int64
  q : Option (Sequence Int64)
  v : Option (Handle Value)

namespace Mixed

/-- The unset mixed record. -/
def blank : Mixed := ⟨none, none, none, none⟩

/-- Mixed records with their four properties, under a name of the record. -/
def shape (record : String) : RecordShape Mixed :=
  .ofFields record blank
    [{ name := "s", ty := .string, get := fun r => r.s
       set := fun r payload => { r with s := some payload } },
     { name := "n", ty := .int, get := fun r => r.n
       set := fun r payload => { r with n := some payload } },
     { name := "q", ty := .ints, get := fun r => r.q
       set := fun r payload => { r with q := some payload } },
     { name := "v", ty := .held, get := fun r => r.v
       set := fun r payload => { r with v := some payload } }]

end Mixed

/-! ## Items with a location -/

/-- An item that remembers where it was read. -/
structure PlacedItem where
  location : Location
  a : Option String
  b : Option String
deriving Repr, DecidableEq

namespace PlacedItem

/-- The first text of a placed item. -/
def accessorA : Accessor PlacedItem where
  ty := .string
  set item payload := .ok { item with a := some payload }
  get item := item.a

/-- The second text of a placed item. -/
def accessorB : Accessor PlacedItem where
  ty := .string
  set item payload := .ok { item with b := some payload }
  get item := item.b

/-- The item at a place, with both its texts unset. -/
def blankAt (context : Span) : PlacedItem := ⟨⟨context⟩, none, none⟩

/-- Placed items, under a name of the record, are made from the span being built only. -/
def shape (record : String) : RecordShape PlacedItem :=
  (RecordShape.new record)
    |>.withContextual (fun context => .ok (blankAt context))
    |>.withProperty "a" accessorA
    |>.withProperty "b" accessorB

/-- The item without its location. -/
def item (r : PlacedItem) : Item := ⟨r.a, r.b⟩

end PlacedItem

end Biparse
