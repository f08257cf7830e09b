import Biparse.Json.Basic

/-!
# Writing JSON

The compact form: no blanks anywhere, and inside a text only quotes, backslashes and the controls
below the space are escaped, by their short name where they have one.
-/

namespace Biparse.Json

/-- One hexadecimal digit, in lower case. -/
def hexDigit (n : Nat) : Char :=
  if n < 10 then Char.ofNat (48 + n) else Char.ofNat (87 + n)

/-- The written form of one character inside a text. -/
def escapeChar (c : Char) : List Char :=
  match c with
  | '"' => ['\\', '"']
  | '\\' => ['\\', '\\']
  | '\x08' => ['\\', 'b']
  | '\t' => ['\\', 't']
  | '\n' => ['\\', 'n']
  | '\x0c' => ['\\', 'f']
  | '\r' => ['\\', 'r']
  | c =>
    if c.toNat < 0x20 then
      ['\\', 'u', '0', '0', hexDigit (c.toNat / 16), hexDigit (c.toNat % 16)]
    else [c]

/-- A text between its quotes. -/
def renderText (s : String) : List Char :=
  '"' :: (s.toList.flatMap escapeChar ++ ['"'])

mutual

/-- The compact form of a document. -/
def render : Json → List Char
  | .null => ['n', 'u', 'l', 'l']
  | .bool true => ['t', 'r', 'u', 'e']
  | .bool false => ['f', 'a', 'l', 's', 'e']
  | .number token => token.toList
  | .text content => renderText (content.getD "")
  | .array items => '[' :: (renderItems items ++ [']'])
  | .object fields => '\x7b' :: (renderFields fields ++ ['\x7d'])

/-- The items of an array with commas between them. -/
def renderItems : List Json → List Char
  | [] => []
  | [item] => item.render
  | item :: next :: rest => item.render ++ ',' :: renderItems (next :: rest)

/-- The fields of an object with commas between them. -/
def renderFields : List (Option String × Json) → List Char
  | [] => []
  | [(key, value)] => renderText (key.getD "") ++ ':' :: value.render
  | (key, value) :: next :: rest =>
    renderText (key.getD "") ++ ':' :: value.render ++ ',' :: renderFields (next :: rest)

end

/-- The compact form of a document, as a text. -/
def write (json : Json) : String := String.ofList json.render

end Biparse.Json
