import Biparse.Json.Basic

/-!
# Reading JSON

A reader takes characters and answers what it read together with the characters it left. The
document reader recurses under a bound on the number of nested steps; `Json.parse?` computes a bound
from the length of the text, so a caller never meets it.
-/

namespace Biparse.Json

/-- Space, tab, line feed and carriage return may stand between tokens. -/
def isBlank (c : Char) : Bool := c == ' ' || c == '\t' || c == '\n' || c == '\r'

/-- The characters from the first token on. -/
def skipBlank (cs : List Char) : List Char := cs.dropWhile isBlank

/-! ## Texts -/

/-- Part of a text: a character, or a code unit given by an escape. -/
inductive Piece where
  | char (c : Char)
  | unit (code : Nat)

/-- The value of a hexadecimal digit in either case. -/
def hexValue? (c : Char) : Option Nat :=
  if '0' ≤ c ∧ c ≤ '9' then some (c.toNat - 48)
  else if 'a' ≤ c ∧ c ≤ 'f' then some (c.toNat - 87)
  else if 'A' ≤ c ∧ c ≤ 'F' then some (c.toNat - 55)
  else none

/-- The code unit that four hexadecimal digits write. -/
def unit? (a b c d : Char) : Option Nat := do
  let a ← hexValue? a
  let b ← hexValue? b
  let c ← hexValue? c
  let d ← hexValue? d
  some (((a * 16 + b) * 16 + c) * 16 + d)

/-- The character a one-letter escape stands for. -/
def shortEscape? (c : Char) : Option Char :=
  match c with
  | '"' => some '"'
  | '\\' => some '\\'
  | '/' => some '/'
  | 'b' => some '\x08'
  | 'f' => some '\x0c'
  | 'n' => some '\n'
  | 'r' => some '\r'
  | 't' => some '\t'
  | _ => none

/-- Reads the inside of a text up to and including its closing quote. -/
def readPieces : List Char → Option (List Piece × List Char)
  | [] => none
  | '"' :: rest => some ([], rest)
  | '\\' :: 'u' :: a :: b :: c :: d :: rest => do
    let code ← unit? a b c d
    let (pieces, left) ← readPieces rest
    some (.unit code :: pieces, left)
  | '\\' :: e :: rest => do
    let c ← shortEscape? e
    let (pieces, left) ← readPieces rest
    some (.char c :: pieces, left)
  | c :: rest =>
    if c.toNat < 0x20 ∨ c = '\\' then none
    else do
      let (pieces, left) ← readPieces rest
      some (.char c :: pieces, left)

/-- A first half of a surrogate pair. -/
def isHigh (code : Nat) : Bool := 0xD800 ≤ code && code < 0xDC00

/-- A second half of a surrogate pair. -/
def isLow (code : Nat) : Bool := 0xDC00 ≤ code && code < 0xE000

/-- The characters of a text: two halves of a pair make one, and a half alone makes none. -/
def assemble : List Piece → Option (List Char)
  | [] => some []
  | .char c :: rest => (assemble rest).map (c :: ·)
  | .unit high :: .unit low :: rest =>
    if isHigh high then
      if isLow low then
        (assemble rest).map (Char.ofNat (0x10000 + (high - 0xD800) * 0x400 + (low - 0xDC00)) :: ·)
      else none
    else if isLow high then none
    else (assemble (.unit low :: rest)).map (Char.ofNat high :: ·)
  | .unit code :: rest =>
    if isHigh code || isLow code then none else (assemble rest).map (Char.ofNat code :: ·)

/-- Reads a text whose opening quote has been taken. -/
def readText (cs : List Char) : Option (Option String × List Char) := do
  let (pieces, left) ← readPieces cs
  some ((assemble pieces).map String.ofList, left)

/-! ## Numbers -/

/-- One or more digits. -/
def readDigits (cs : List Char) : Option (List Char × List Char) :=
  match cs.takeWhile Char.isDigit with
  | [] => none
  | digits => some (digits, cs.dropWhile Char.isDigit)

/-- The digits before the point: a zero alone, or digits that do not start with zero. -/
def readWhole (cs : List Char) : Option (List Char × List Char) :=
  match cs with
  | '0' :: rest => some (['0'], rest)
  | cs => readDigits cs

/-- A point with digits after it, if there is a point. -/
def readFraction (cs : List Char) : Option (List Char × List Char) :=
  match cs with
  | '.' :: rest => do
    let (digits, left) ← readDigits rest
    some ('.' :: digits, left)
  | cs => some ([], cs)

/-- An exponent mark with an optional sign and digits after it, if there is a mark. -/
def readExponent (cs : List Char) : Option (List Char × List Char) :=
  match cs with
  | c :: rest =>
    if c = 'e' ∨ c = 'E' then do
      let (sign, rest) := match rest with
        | '+' :: rest => (['+'], rest)
        | '-' :: rest => (['-'], rest)
        | rest => ([], rest)
      let (digits, left) ← readDigits rest
      some (c :: sign ++ digits, left)
    else some ([], c :: rest)
  | [] => some ([], [])

/-- Reads a number and keeps its digits as written. -/
def readNumber (cs : List Char) : Option (String × List Char) := do
  let (sign, cs) := match cs with
    | '-' :: rest => (['-'], rest)
    | cs => ([], cs)
  let (whole, cs) ← readWhole cs
  let (fraction, cs) ← readFraction cs
  let (exponent, cs) ← readExponent cs
  some (String.ofList (sign ++ whole ++ fraction ++ exponent), cs)

/-! ## Documents -/

mutual

/-- Reads one document, blanks before it included. -/
def readValue : Nat → List Char → Option (Json × List Char)
  | 0, _ => none
  | bound + 1, cs =>
    match skipBlank cs with
    | 'n' :: 'u' :: 'l' :: 'l' :: rest => some (.null, rest)
    | 't' :: 'r' :: 'u' :: 'e' :: rest => some (.bool true, rest)
    | 'f' :: 'a' :: 'l' :: 's' :: 'e' :: rest => some (.bool false, rest)
    | '"' :: rest => do
      let (content, left) ← readText rest
      some (.text content, left)
    | '[' :: rest =>
      match skipBlank rest with
      | ']' :: left => some (.array [], left)
      | rest => do
        let (items, left) ← readItems bound rest
        some (.array items, left)
    | '\x7b' :: rest =>
      match skipBlank rest with
      | '\x7d' :: left => some (.object [], left)
      | rest => do
        let (fields, left) ← readFields bound rest
        some (.object fields, left)
    | rest => do
      let (token, left) ← readNumber rest
      some (.number token, left)

/-- Reads items up to and including the closing bracket. -/
def readItems : Nat → List Char → Option (List Json × List Char)
  | 0, _ => none
  | bound + 1, cs => do
    let (item, rest) ← readValue bound cs
    match skipBlank rest with
    | ',' :: rest =>
      let (items, left) ← readItems bound rest
      some (item :: items, left)
    | ']' :: left => some ([item], left)
    | _ => none

/-- Reads fields up to and including the closing brace. -/
def readFields : Nat → List Char → Option (List (Option String × Json) × List Char)
  | 0, _ => none
  | bound + 1, cs =>
    match skipBlank cs with
    | '"' :: rest => do
      let (key, rest) ← readText rest
      match skipBlank rest with
      | ':' :: rest =>
        let (value, rest) ← readValue bound rest
        match skipBlank rest with
        | ',' :: rest =>
          let (fields, left) ← readFields bound rest
          some ((key, value) :: fields, left)
        | '\x7d' :: left => some ([(key, value)], left)
        | _ => none
      | _ => none
    | _ => none

end

/-- Reads a text that holds one document with blanks around it. A nested step takes at least one
character or follows one that did, so twice the length bounds their number. -/
def parse? (text : String) : Option Json := do
  let (json, rest) ← readValue (2 * text.toList.length + 2) text.toList
  if (skipBlank rest).isEmpty then some json else none

end Biparse.Json
