import Biparse.Json.Basic

/-!
# Taking values out of JSON documents

Each reader accepts one kind of document. A record is read from an object, whose fields may come in
any order and beside unknown ones, or from an array of exactly its fields in order; a field may not
be given twice.
-/

namespace Biparse.Json

/-- The content of a text document. -/
def string? : Json → Option String
  | .text content => content
  | _ => none

/-- The value of a run of decimal digits. -/
def digitsValue (digits : List Char) : Nat :=
  digits.foldl (fun value c => value * 10 + (c.toNat - 48)) 0

/-- A natural number below `bound`, written without fraction or exponent. -/
def natBelow? (bound : Nat) : Json → Option Nat
  | .number token =>
    let value := digitsValue token.toList
    if token.toList.all Char.isDigit ∧ value < bound then some value else none
  | _ => none

/-- A 64-bit offset. -/
def offset? (json : Json) : Option Nat := natBelow? UInt64.size json

/-- A signed 64-bit integer, written without fraction or exponent. Minus zero is a fraction's
zero, not an integer. -/
def int64? (json : Json) : Option Int64 :=
  match json with
  | .number token =>
    match token.toList with
    | '-' :: digits =>
      let value := digitsValue digits
      if digits.all Char.isDigit ∧ 0 < value ∧ value ≤ 0x8000000000000000 then
        some (Int64.ofInt (-(value : Int)))
      else none
    | _ => (natBelow? 0x8000000000000000 json).map fun value => Int64.ofInt value
  | _ => none

/-- A value that may be missing: `null` stands for none. -/
def optional? {α : Type} (read : Json → Option α) : Option Json → Option (Option α)
  | none => some none
  | some .null => some none
  | some json => (read json).map some

/-- The keys of an object that are to be texts, with their values. -/
def keyed? (fields : List (Option String × Json)) : Option (List (String × Json)) :=
  fields.mapM fun (key, value) => key.map fun key => (key, value)

/-- What a document says for each of the named fields. -/
def fields? (names : List String) : Json → Option (List (Option Json))
  | .array items => if items.length = names.length then some (items.map some) else none
  | .object fields => do
    let fields ← keyed? fields
    if names.all fun name => (fields.filter (·.1 == name)).length ≤ 1 then
      some (names.map fun name => fields.lookup name)
    else none
  | _ => none

/-- An object whose values are all texts. -/
def strings? : Json → Option (List (String × String))
  | .object fields => do
    let fields ← keyed? fields
    fields.mapM fun (key, value) => (string? value).map fun value => (key, value)
  | _ => none

/-- The name of a choice without content: a text, or an object whose only field has that name and
holds nothing. -/
def choice? : Json → Option String
  | .text content => content
  | .object [(key, .null)] => key
  | _ => none

end Biparse.Json
