import Biparse.Diagnostic.Basic
import Biparse.Json.Decode
import Biparse.Json.Reader
import Biparse.Json.Writer
import Biparse.Source.Location

/-!
# Spans, locations and diagnostics as JSON documents

Writing puts the fields in their declared order and leaves out an absent span and absent details;
details that are present but empty are written as an empty object. Reading accepts what writing
produces, and the looser forms that `Json.fields?` describes.
-/

namespace Biparse

namespace Span

/-- A span as a document. -/
def toJson (s : Span) : Json :=
  Json.ofFields [("start", Json.ofNat s.start), ("end", Json.ofNat s.stop)]

/-- The span a document describes, inverted or not. -/
def ofJson? (json : Json) : Option Span := do
  match ← json.fields? ["start", "end"] with
  | [some start, some stop] => some ⟨← start.offset?, ← stop.offset?⟩
  | _ => none

end Span

namespace Location

/-- A location as a document. -/
def toJson (location : Location) : Json := Json.ofFields [("span", location.span.toJson)]

/-- The location a document describes. -/
def ofJson? (json : Json) : Option Location := do
  match ← json.fields? ["span"] with
  | [some span] => some ⟨← Span.ofJson? span⟩
  | _ => none

end Location

namespace Located

/-- A located value as a document. -/
def toJson {α : Type} (write : α → Json) (located : Located α) : Json :=
  Json.ofFields [("info", located.location.toJson), ("value", write located.value)]

/-- The located value a document describes. -/
def ofJson? {α : Type} (read : Json → Option α) (json : Json) : Option (Located α) := do
  match ← json.fields? ["info", "value"] with
  | [some info, some value] => some ⟨← Location.ofJson? info, ← read value⟩
  | _ => none

end Located

namespace Severity

/-- A severity as a document. -/
def toJson (severity : Severity) : Json := Json.ofString severity.name

/-- The severity a document names. -/
def ofJson? (json : Json) : Option Severity := json.choice? >>= ofName?

end Severity

namespace Diagnostic

/-- Details as an object in key order. -/
def detailsToJson (details : Details) : Json :=
  Json.ofFields (details.entries.map fun entry => (entry.1, Json.ofString entry.2))

/-- The details an object of texts gives; of a repeated key the last value counts. -/
def detailsOfJson? (json : Json) : Option Details := json.strings?.map SortedMap.ofList

/-- A diagnostic as a document. -/
def toJson (d : Diagnostic) : Json :=
  Json.ofFields <|
    [("id", Json.ofString d.id), ("severity", d.severity.toJson),
     ("message", Json.ofString d.message)]
    ++ (d.span.map fun span => ("span", span.toJson)).toList
    ++ (d.details.map fun details => ("context", detailsToJson details)).toList

/-- The diagnostic a document describes. -/
def ofJson? (json : Json) : Option Diagnostic := do
  match ← json.fields? ["id", "severity", "message", "span", "context"] with
  | [some id, some severity, some message, span, details] =>
    some
      { id := ← id.string?
        severity := ← Severity.ofJson? severity
        message := ← message.string?
        span := ← Json.optional? Span.ofJson? span
        details := ← Json.optional? detailsOfJson? details }
  | _ => none

/-- The compact text of a diagnostic. -/
def serialize (d : Diagnostic) : String := d.toJson.write

/-- The diagnostic a text describes. -/
def deserialize? (text : String) : Option Diagnostic := Json.parse? text >>= ofJson?

end Diagnostic

end Biparse
