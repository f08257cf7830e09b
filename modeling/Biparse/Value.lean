import Biparse.Component
import Biparse.Sequence.Basic
import Biparse.Text.Outline

/-!
# Values of any type

A value carries its type with it, and gives its payload only to a reader that asks for exactly that
type. Which types there are is left open (`Payloads`), beside the few that this library itself puts
into values. Nothing is known of a type but whether it is the one asked for; even its name may be
that of another type too.

A value may hold another value; that is a type of its own, and no reader sees through it. Held
values are handles, so that a held value can still be told to be the same one as another.
-/

namespace Biparse

/-! ## Parts of payloads -/

/-- Content in a memory cell of its own. Copies of a handle name the same cell. -/
structure Handle (ν : Type) where
  cell : Nat
  content : ν

/-- Whether two handles name the same cell. -/
def Handle.sharesCell {ν : Type} (a b : Handle ν) : Bool := a.cell == b.cell

/-- A record with one optional text. -/
structure Tag where
  a : Option String
deriving Repr, DecidableEq

/-- A record with two optional texts. -/
structure Item where
  a : Option String
  b : Option String
deriving Repr, DecidableEq

/-! ## Types of payloads -/

/-- The types of payloads that hold no value: those of this library, and all others by a code. -/
inductive FlatTy (Code : Type) where
  | string
  | int
  | ints
  | tag
  | item
  | other (code : Code)
deriving DecidableEq

/-- The types of payloads by a code. -/
inductive TyOf (Code : Type) where
  | flat (t : FlatTy Code)
  | held
deriving DecidableEq

/-- The types that a program puts into values beside those of this library, and what all of them are
called in messages. -/
class Payloads where
  Code : Type
  decEq : DecidableEq Code
  Carrier : Code → Type
  name : TyOf Code → String

variable [Payloads]

instance : DecidableEq Payloads.Code := Payloads.decEq

/-- The types of payloads. -/
abbrev Ty : Type := TyOf Payloads.Code

/-- The payloads of a type that hold no value. -/
abbrev FlatTy.Carrier : FlatTy Payloads.Code → Type
  | string => String
  | int => Int64
  | ints => Sequence Int64
  | tag => Tag
  | item => Item
  | other code => Payloads.Carrier code

/-! ## Values -/

/-- A value: a type and a payload of that type. -/
inductive Value where
  | flat (t : FlatTy Payloads.Code) (payload : t.Carrier)
  | held (payload : Handle Value)

namespace Ty

@[match_pattern] abbrev string : Ty := .flat .string
@[match_pattern] abbrev int : Ty := .flat .int
@[match_pattern] abbrev ints : Ty := .flat .ints
@[match_pattern] abbrev tag : Ty := .flat .tag
@[match_pattern] abbrev item : Ty := .flat .item
@[match_pattern] abbrev held : Ty := TyOf.held

/-- The payloads of a type. -/
abbrev Carrier : Ty → Type
  | .flat t => t.Carrier
  | .held => Handle Value

/-- The name of a type in messages. -/
def name (t : Ty) : String := Payloads.name t

end Ty

namespace Value

@[match_pattern] abbrev string (payload : String) : Value := .flat .string payload
@[match_pattern] abbrev int (payload : Int64) : Value := .flat .int payload
@[match_pattern] abbrev ints (payload : Sequence Int64) : Value := .flat .ints payload
@[match_pattern] abbrev tag (payload : Tag) : Value := .flat .tag payload
@[match_pattern] abbrev item (payload : Item) : Value := .flat .item payload

/-- The type of the payload. -/
def ty : Value → Ty
  | .flat t _ => .flat t
  | .held _ => .held

/-- The value with a payload of a type. -/
def of : (t : Ty) → t.Carrier → Value
  | .flat t, payload => .flat t payload
  | .held, payload => .held payload

/-- The payload, as one of the value's own type. -/
def payload : (v : Value) → v.ty.Carrier
  | .flat _ payload => payload
  | .held payload => payload

/-- Whether the payload is of a type. -/
def is (v : Value) (t : Ty) : Bool := v.ty == t

/-- The payload, if it is of exactly the type asked for. -/
def downcast? (t : Ty) (v : Value) : Option t.Carrier :=
  if h : v.ty = t then some (h ▸ v.payload) else none

/-- A text is shown quoted and an integer by its digits; of all else only the type is shown. -/
def outline [Glyphs] : Value → Outline
  | .string payload => .leaf (Quoted.encode payload)
  | .int payload => .leaf (Integer.print payload)
  | v => .leaf ("<" ++ v.ty.name ++ ">")

/-- The component that wraps payloads of a type; backward recovers them from values of exactly that
type. One rule may so yield results of several types. -/
def erase (t : Ty) : Mapping t.Carrier Value where
  forward _ payload := .ok (of t payload)
  backward v := v.downcast? t

/-! ### Types and payloads -/

theorem of_payload (v : Value) : of v.ty v.payload = v := by
  cases v <;> rfl

theorem ty_of (t : Ty) (payload : t.Carrier) : (of t payload).ty = t := by
  cases t <;> rfl

theorem ty_eq_iff {v : Value} {t : Ty} : v.ty = t ↔ ∃ payload, v = of t payload := by
  constructor
  · rintro rfl
    exact ⟨v.payload, (of_payload v).symm⟩
  · rintro ⟨payload, rfl⟩
    exact ty_of t payload

theorem downcast?_of (t : Ty) (payload : t.Carrier) :
    (of t payload).downcast? t = some payload := by
  cases t <;> exact dif_pos rfl

theorem downcast?_eq_some_iff {t : Ty} {v : Value} {payload : t.Carrier} :
    v.downcast? t = some payload ↔ v = of t payload := by
  constructor
  · intro h
    obtain ⟨rfl, hpayload⟩ := Option.dite_none_right_eq_some.mp h
    rw [← Option.some.inj hpayload, of_payload]
  · rintro rfl
    exact downcast?_of t payload

theorem downcast?_of_ty_ne {t : Ty} {v : Value} (h : v.ty ≠ t) : v.downcast? t = none :=
  dif_neg h

theorem is_eq_isSome_downcast? (v : Value) (t : Ty) : v.is t = (v.downcast? t).isSome := by
  rw [is, downcast?]
  split <;> simp [*]

theorem of_injective (t : Ty) : Function.Injective (of t) := by
  intro payload payload' h
  have hsame := downcast?_of t payload
  rw [h, downcast?_of] at hsame
  exact (Option.some.inj hsame).symm

theorem string_inj {text text' : String} : string text = string text' ↔ text = text' :=
  (of_injective .string).eq_iff

end Value

end Biparse
