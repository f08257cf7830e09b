/-!
# Texts shown to people

The quoted form of a text stands between double quotes. Quotes and backslashes are escaped, the
common controls have short escapes, and all else stands for itself if it can be seen. Which
characters can be seen is a matter of the character standard in force, and is left open here
(`Glyphs`); the others are written by their code points in hexadecimal.

Structured values are laid out as outlines. A leaf is a text, a list stands in square brackets, and
a dictionary stands in braces with a colon between key and value. The one-line form separates
entries by a comma and a space; the indented form gives every entry lines of its own, four blanks
deeper, each ended by a comma. An empty list or dictionary has the same two characters in both.
-/

namespace Biparse

/-! ## Quoted texts -/

/-- Which characters stand for themselves in quoted texts. -/
class Glyphs where
  isVisible : Char → Bool

namespace Quoted

variable [Glyphs]

/-- The written form of one character between the quotes. -/
def encodeChar (c : Char) : List Char :=
  match c with
  | '\x00' => ['\\', '0']
  | '\t' => ['\\', 't']
  | '\r' => ['\\', 'r']
  | '\n' => ['\\', 'n']
  | '"' => ['\\', '"']
  | '\\' => ['\\', '\\']
  | c =>
    if Glyphs.isVisible c then [c]
    else '\\' :: 'u' :: '\x7b' :: (Nat.toDigits 16 c.toNat ++ ['\x7d'])

/-- A text in its quoted form. -/
def encode (text : String) : String :=
  String.ofList ('"' :: (text.toList.flatMap encodeChar ++ ['"']))

end Quoted

/-! ## Outlines -/

/-- A value laid out as leaves, lists and dictionaries. -/
inductive Outline where
  | leaf (text : String)
  | list (items : List Outline)
  | dict (entries : List (Outline × Outline))

namespace Outline

mutual

/-- The one-line form. -/
def inline : Outline → String
  | .leaf text => text
  | .list items => "[" ++ inlineItems items ++ "]"
  | .dict entries => "\x7b" ++ inlineEntries entries ++ "\x7d"

/-- Items with a comma and a space between them. -/
def inlineItems : List Outline → String
  | [] => ""
  | [item] => item.inline
  | item :: next :: rest => item.inline ++ ", " ++ inlineItems (next :: rest)

/-- Entries with a comma and a space between them. -/
def inlineEntries : List (Outline × Outline) → String
  | [] => ""
  | [(key, value)] => key.inline ++ ": " ++ value.inline
  | (key, value) :: next :: rest =>
    key.inline ++ ": " ++ value.inline ++ ", " ++ inlineEntries (next :: rest)

end

/-- The blanks before a line at a level. -/
def margin (level : Nat) : String := String.ofList (List.replicate (4 * level) ' ')

mutual

/-- The indented form of something that starts on a line of the given level. -/
def indentedAt (level : Nat) : Outline → String
  | .leaf text => text
  | .list [] => "[]"
  | .list (item :: rest) =>
    "[\n" ++ margin (level + 1) ++ item.indentedAt (level + 1) ++ ",\n"
      ++ indentedItems (level + 1) rest ++ margin level ++ "]"
  | .dict [] => "\x7b\x7d"
  | .dict ((key, value) :: rest) =>
    "\x7b\n" ++ margin (level + 1) ++ key.indentedAt (level + 1) ++ ": "
      ++ value.indentedAt (level + 1) ++ ",\n"
      ++ indentedEntries (level + 1) rest ++ margin level ++ "\x7d"

/-- Items on lines of their own. -/
def indentedItems (level : Nat) : List Outline → String
  | [] => ""
  | item :: rest => margin level ++ item.indentedAt level ++ ",\n" ++ indentedItems level rest

/-- Entries on lines of their own. -/
def indentedEntries (level : Nat) : List (Outline × Outline) → String
  | [] => ""
  | (key, value) :: rest =>
    margin level ++ key.indentedAt level ++ ": " ++ value.indentedAt level ++ ",\n"
      ++ indentedEntries level rest

end

/-- The indented form. -/
def indented (outline : Outline) : String := outline.indentedAt 0

end Outline

end Biparse
