import Biparse.Diagnostic.Basic
import Biparse.Integer.Literal
import Biparse.Text.Outline

/-!
# Errors

What can go wrong when a component runs forward (`Error`) and when it is configured
(`ConfigError`). Each error is its cause; `message` words it and `toDiagnostic` reports it with a
code and named details. A refused inversion is no error: backward steps answer `none`.
-/

namespace Biparse

/-! ## Outcomes -/

theorem mapError_eq_ok_iff {ε δ α : Type} {f : ε → δ} {x : Except ε α} {a : α} :
    x.mapError f = .ok a ↔ x = .ok a := by
  cases x with
  | ok value => exact ⟨fun h => congrArg _ (Except.ok.inj h), fun h => congrArg _ (Except.ok.inj h)⟩
  | error failure => exact ⟨(nomatch ·), (nomatch ·)⟩

theorem toOption_eq_some_iff {ε α : Type} {x : Except ε α} {a : α} :
    x.toOption = some a ↔ x = .ok a := by
  cases x <;> simp [Except.toOption]

theorem bind_eq_ok_iff {ε α β : Type} {x : Except ε α} {f : α → Except ε β} {b : β} :
    (x >>= f) = .ok b ↔ ∃ a, x = .ok a ∧ f a = .ok b := by
  cases x <;> simp [bind, Except.bind]

theorem bind_eq_error_iff {ε α β : Type} {x : Except ε α} {f : α → Except ε β} {e : ε} :
    (x >>= f) = .error e ↔ x = .error e ∨ ∃ a, x = .ok a ∧ f a = .error e := by
  cases x <;> simp [bind, Except.bind]

/-! ## Literals -/

/-- A text that is not a literal of the target type. -/
structure FormatError where
  text : String
  reason : Integer.Fault
deriving Repr, DecidableEq

namespace FormatError

/-- The wording, with the text quoted. -/
def message [Glyphs] (e : FormatError) : String :=
  "invalid integer literal " ++ Quoted.encode e.text

/-- The report of the error at a place. -/
def toDiagnostic [Glyphs] (e : FormatError) (span : Option Span) : Diagnostic :=
  .ofCode .error .invalidLiteral e.message span [("expected", "integer"), ("text", e.text)]

end FormatError

/-! ## Records -/

/-- Why a record could not be built from its properties. -/
inductive BuildError where
  | unknownProperty (record property : String)
  | typeMismatch (record property expected found : String)
  | setter (record property complaint : String)
  | constructor (record complaint : String)
deriving Repr, DecidableEq

namespace BuildError

/-- The wording. -/
def message : BuildError → String
  | unknownProperty record property =>
    record ++ " has no setter for property \x60" ++ property ++ "\x60"
  | typeMismatch record property expected found =>
    "property \x60" ++ property ++ "\x60 of " ++ record ++ " expects " ++ expected ++ ", found "
      ++ found
  | setter record property complaint =>
    "setting \x60" ++ property ++ "\x60 on " ++ record ++ " failed: " ++ complaint
  | constructor record complaint => "constructing " ++ record ++ " failed: " ++ complaint

/-- The code an error is reported under. -/
def code : BuildError → Diagnostic.Code
  | unknownProperty .. => .unknownProperty
  | typeMismatch .. => .typeMismatch
  | setter .. => .setterFailed
  | constructor .. => .constructorFailed

/-- The named details of an error. -/
def details : BuildError → List (String × String)
  | unknownProperty record property => [("record", record), ("property", property)]
  | typeMismatch record property expected found =>
    [("record", record), ("property", property), ("expected", expected), ("found", found)]
  | setter record property _ => [("record", record), ("property", property)]
  | constructor record _ => [("record", record)]

/-- The report of the error at a place. -/
def toDiagnostic (e : BuildError) (span : Option Span) : Diagnostic :=
  .ofCode .error e.code e.message span e.details

end BuildError

/-! ## Forward steps -/

/-- Why a forward step failed. -/
inductive Error where
  | format (e : FormatError)
  | build (e : BuildError)
  | overflow (value : Int64)
  | arity (expected found : Nat)
deriving Repr, DecidableEq

namespace Error

/-- The wording. -/
def message [Glyphs] : Error → String
  | format e => e.message
  | build e => e.message
  | overflow value => Integer.print value ++ " has no successor"
  | arity expected found =>
    "expected " ++ toString expected ++ " elements, found " ++ toString found

/-- The reason underneath, for the errors that have one. -/
def source : Error → Option Integer.Fault
  | format e => some e.reason
  | _ => none

/-- The report of the error at a place. -/
def toDiagnostic [Glyphs] (e : Error) (span : Option Span) : Diagnostic :=
  match e with
  | format e => e.toDiagnostic span
  | build e => e.toDiagnostic span
  | overflow value =>
    .ofCode .error .overflow e.message span [("value", Integer.print value)]
  | arity expected found =>
    .ofCode .error .arity e.message span
      [("expected", toString expected), ("found", toString found)]

end Error

/-! ## Configuration -/

/-- A list of indices the way messages show it. -/
def showIndices (order : List Nat) : String :=
  "[" ++ String.intercalate ", " (order.map toString) ++ "]"

/-- Why a component cannot be made from its configuration. -/
inductive ConfigError where
  | missingConstructor (record : String) (withContext : Bool)
  | missingAccessor (record property : String)
  | invalidPermutation (order : List Nat)
deriving Repr, DecidableEq

namespace ConfigError

/-- The wording. -/
def message : ConfigError → String
  | missingConstructor record withContext =>
    record ++ " has no " ++ (if withContext then "context-taking" else "plain") ++ " constructor"
  | missingAccessor record property =>
    record ++ " has no accessors for property \x60" ++ property ++ "\x60"
  | invalidPermutation order => showIndices order ++ " is not a permutation"

/-- The report of the error. A configuration has no place in the input. -/
def toDiagnostic (e : ConfigError) : Diagnostic :=
  match e with
  | missingConstructor record withContext =>
    .ofCode .error .missingConstructor e.message none
      [("record", record), ("with_context", if withContext then "true" else "false")]
  | missingAccessor record property =>
    .ofCode .error .missingAccessor e.message none [("record", record), ("property", property)]
  | invalidPermutation order =>
    .ofCode .error .invalidPermutation e.message none [("order", showIndices order)]

end ConfigError

end Biparse
