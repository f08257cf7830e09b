import Biparse.Elem.Number
import Biparse.Integer.Literal
import Biparse.Json.Basic
import Biparse.Text.Outline

/-!
# Elements

The dynamic values that sequences and maps are filled with. Equality is structural, except that
floating-point numbers compare as such, so an element equals itself exactly when no not-a-number
stands anywhere inside it. Elements of different kinds are never equal.
-/

namespace Biparse

/-- An element: a unit, a scalar, a text, or a sequence of elements. -/
inductive Elem where
  | unit
  | bool (value : Bool)
  | int (value : Int64)
  | float (value : FloatNumber)
  | text (value : String)
  | list (items : List Elem)

namespace Elem

mutual

/-- Equality of elements. -/
def same : Elem → Elem → Bool
  | .unit, .unit => true
  | .bool a, .bool b => a == b
  | .int a, .int b => a == b
  | .float a, .float b => a == b
  | .text a, .text b => a == b
  | .list a, .list b => sameItems a b
  | _, _ => false

/-- Equality item by item. -/
def sameItems : List Elem → List Elem → Bool
  | [], [] => true
  | a :: as, b :: bs => same a b && sameItems as bs
  | _, _ => false

end

instance : BEq Elem := ⟨same⟩

section Shown

variable [Glyphs]

mutual

/-- How an element is shown. -/
def outline : Elem → Outline
  | .unit => .leaf "()"
  | .bool value => .leaf (if value then "true" else "false")
  | .int value => .leaf (Integer.print value)
  | .float value => .leaf value.print
  | .text value => .leaf (Quoted.encode value)
  | .list items => .list (outlines items)

/-- How items are shown. -/
def outlines : List Elem → List Outline
  | [] => []
  | item :: rest => item.outline :: outlines rest

end

/-- The text of an element that stands for itself inside another text: a text without quotes, all
else as it is shown. -/
def label : Elem → String
  | .text value => value
  | e => e.outline.inline

end Shown

mutual

/-- An element as a document. Floating-point numbers are written as texts, for a document has no
number for most of them. -/
def toJson : Elem → Json
  | .unit => .null
  | .bool value => .bool value
  | .int value => Json.ofInt value.toInt
  | .float value => Json.ofString value.print
  | .text value => Json.ofString value
  | .list items => .array (itemsToJson items)

/-- Items as documents. -/
def itemsToJson : List Elem → List Json
  | [] => []
  | item :: rest => item.toJson :: itemsToJson rest

end

end Elem

end Biparse
