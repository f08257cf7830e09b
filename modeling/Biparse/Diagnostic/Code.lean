/-!
# Diagnostic codes

Every kind of failure has a code with a fixed identifier and an explanation for people. Codes of the
thousands come from reading values, of the two thousands from building records, of the three
thousands from configuring components.
-/

namespace Biparse.Diagnostic

/-- The kinds of trouble a diagnostic can report. -/
inductive Code where
  | invalidLiteral
  | overflow
  | arity
  | unknownProperty
  | typeMismatch
  | setterFailed
  | constructorFailed
  | missingConstructor
  | missingAccessor
  | invalidPermutation
deriving Repr, DecidableEq

namespace Code

/-- The identifier a diagnostic carries. -/
def id : Code → String
  | .invalidLiteral => "ISX1001"
  | .overflow => "ISX1002"
  | .arity => "ISX1003"
  | .unknownProperty => "ISX2001"
  | .typeMismatch => "ISX2002"
  | .setterFailed => "ISX2003"
  | .constructorFailed => "ISX2004"
  | .missingConstructor => "ISX3001"
  | .missingAccessor => "ISX3002"
  | .invalidPermutation => "ISX3003"

/-- What the code means, for people. -/
def explanation : Code → String
  | .invalidLiteral =>
    "The token does not have the shape of a literal of the target type, e.g. non-digit " ++
      "characters for an integer. The driving engine treats this as a failed alternative."
  | .overflow =>
    "Applying the mapping would produce a value outside the range of the target type."
  | .arity =>
    "A sequence mapping expects a fixed number of elements and received a different number."
  | .unknownProperty =>
    "The property map holds a key for which the record shape defines no setter. Register an " ++
      "accessor for the key or configure the builder to skip unknown properties."
  | .typeMismatch =>
    "The value stored under a property key is not of the type the setter accepts."
  | .setterFailed => "A setter registered on the record shape rejected its value."
  | .constructorFailed => "The constructor registered on the record shape failed."
  | .missingConstructor =>
    "The record shape registers no constructor for the requested construction path (plain or " ++
      "context-taking)."
  | .missingAccessor =>
    "A property listed for an invertible record mapping has no setter/getter pair on the " ++
      "record shape."
  | .invalidPermutation =>
    "The index order given to a permutation mapping does not contain each position exactly once."

/-- Every code, in the order of the identifiers. -/
def all : List Code :=
  [.invalidLiteral, .overflow, .arity, .unknownProperty, .typeMismatch, .setterFailed,
   .constructorFailed, .missingConstructor, .missingAccessor, .invalidPermutation]

end Code

/-- The explanation of the code with an identifier, if there is such a code. -/
def explain (id : String) : Option String :=
  (Code.all.find? fun code => code.id == id).map Code.explanation

end Biparse.Diagnostic
