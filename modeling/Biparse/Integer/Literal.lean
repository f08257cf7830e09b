/-!
# Integer literals

A signed 64-bit integer is written as an optional sign and one or more decimal digits. Reading goes
from left to right and stops at the first thing wrong, so a run of digits that has left the range is
out of range whatever follows it. Printing gives the canonical literal: no plus sign, no leading
zero, no negative zero.
-/

namespace Biparse.Integer

/-- Why a text is no integer literal. -/
inductive Fault where
  | empty
  | invalidDigit
  | tooLarge
  | tooSmall
deriving Repr, DecidableEq

/-- The wording of a fault. -/
def Fault.message : Fault → String
  | .empty => "cannot parse integer from empty string"
  | .invalidDigit => "invalid digit found in string"
  | .tooLarge => "number too large to fit in target type"
  | .tooSmall => "number too small to fit in target type"

/-- Reads digits onto the value so far and stops when the value passes `limit`, with the fault that
passing it is, or at a character that is no digit. -/
def readDigits (limit : Nat) (passed : Fault) (value : Nat) : List Char → Except Fault Nat
  | [] => .ok value
  | c :: rest =>
    if c.isDigit then
      let next := value * 10 + (c.toNat - 48)
      if limit < next then .error passed else readDigits limit passed next rest
    else .error .invalidDigit

/-- Reads the magnitude after a sign: at least one digit. -/
def readMagnitude (limit : Nat) (passed : Fault) : List Char → Except Fault Nat
  | [] => .error .invalidDigit
  | digits => readDigits limit passed 0 digits

/-- The largest magnitude below zero, one more than the largest above. -/
def negativeLimit : Nat := 0x8000000000000000

/-- The largest magnitude above zero. -/
def positiveLimit : Nat := 0x7fffffffffffffff

/-- Reads the digits of an integer that is not negative. -/
def readPositive (digits : List Char) : Except Fault Int64 :=
  (readMagnitude positiveLimit .tooLarge digits).map fun n : Nat => Int64.ofInt n

/-- Reads the digits of an integer behind a minus sign. -/
def readNegative (digits : List Char) : Except Fault Int64 :=
  (readMagnitude negativeLimit .tooSmall digits).map fun n : Nat => Int64.ofInt (-(n : Int))

/-- Reads a literal. -/
def parse (text : String) : Except Fault Int64 :=
  match text.toList with
  | [] => .error .empty
  | '-' :: digits => readNegative digits
  | '+' :: digits => readPositive digits
  | digits => readPositive digits

/-- The canonical literal of an integer. -/
def print (n : Int64) : String := toString n.toInt

end Biparse.Integer
