/-!
# JSON documents

A document as it stands in a text. Numbers keep the digits they are written with, so nothing is
rounded before a reader asks for a range, and objects keep repeated keys and the order of their
fields, because which of them matter is for the reader to say.
-/

namespace Biparse

/-- A JSON document. A text is `none` when its escapes name half of a surrogate pair: that is
well formed, but no character string is written that way. -/
inductive Json where
  | null
  | bool (value : Bool)
  | number (token : String)
  | text (content : Option String)
  | array (items : List Json)
  | object (fields : List (Option String × Json))
deriving Inhabited, Repr

namespace Json

/-- A text document. -/
def ofString (s : String) : Json := .text (some s)

/-- A natural number in decimal digits. -/
def ofNat (n : Nat) : Json := .number (toString n)

/-- An integer in decimal digits, with a minus sign below zero. -/
def ofInt (n : Int) : Json := .number (toString n)

/-- An object with plain keys. -/
def ofFields (fields : List (String × Json)) : Json :=
  .object (fields.map fun field => (some field.1, field.2))

end Json

end Biparse
