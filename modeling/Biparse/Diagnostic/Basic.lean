import Biparse.Diagnostic.Code
import Biparse.SortedMap
import Biparse.Source.Span

/-!
# Diagnostics

What a component reports about a failure: a code, a severity, a message for people, and optionally
where in the input it arose and named details for tools.
-/

namespace Biparse

/-- How bad it is. -/
inductive Severity where
  /-- The input makes no value, or the component cannot be used. -/
  | error
  /-- The result may not be what was meant. -/
  | warn
deriving Repr, DecidableEq

namespace Severity

/-- The name of a severity in messages and documents. -/
def name : Severity → String
  | .error => "error"
  | .warn => "warn"

/-- The severity with a name. -/
def ofName? (name : String) : Option Severity :=
  if name = "error" then some .error
  else if name = "warn" then some .warn
  else none

end Severity

/-- The named details of a diagnostic. -/
abbrev Details := SortedMap String

/-- A report about a failure or a doubt. -/
structure Diagnostic where
  id : String
  severity : Severity
  message : String
  span : Option Span
  details : Option Details
deriving DecidableEq

namespace Diagnostic

/-- A report without details. -/
def new (severity : Severity) (id message : String) (span : Option Span) : Diagnostic :=
  ⟨id, severity, message, span, none⟩

/-- The report with these details in place of any it had. -/
def withDetails (d : Diagnostic) (details : Details) : Diagnostic :=
  { d with details := some details }

/-- A report of a known code with details. -/
def ofCode (severity : Severity) (code : Code) (message : String) (span : Option Span)
    (details : List (String × String)) : Diagnostic :=
  (new severity code.id message span).withDetails (SortedMap.ofList details)

/-- The one-line form for people. -/
def display (d : Diagnostic) : String :=
  d.severity.name ++ "[" ++ d.id ++ "]: " ++ d.message

/-- The explanation of the report's code, if it is a known one. -/
def explanation (d : Diagnostic) : Option String := explain d.id

end Diagnostic

end Biparse
