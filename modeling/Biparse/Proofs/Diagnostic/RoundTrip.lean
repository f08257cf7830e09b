import Biparse.Diagnostic.Json
import Biparse.Proofs.Json.RoundTrip

/-!
# Diagnostics survive their documents

Spans, locations and diagnostics are read back from the compact text they are written as, whatever
is in their texts and in whatever order the bounds of a span stand; an absent part is left out and
read as absent, so it is told from an empty one (`reports_round_trip`). The document is taken care
of by `Json.parse?_write`; what is left here is that each record finds its fields again.
-/

namespace Biparse

/-- For values in range reading undoes writing, so different ones are written differently. -/
structure RoundTrips {α : Type} (InRange : α → Prop) (write : α → String)
    (read? : String → Option α) : Prop where
  readBack : ∀ a, InRange a → read? (write a) = some a
  distinct : ∀ a b, InRange a → InRange b → write a = write b → a = b

namespace Span

/-- The offsets of a span are 64-bit numbers. -/
def Fits (s : Span) : Prop := s.start < UInt64.size ∧ s.stop < UInt64.size

theorem plain_toJson (s : Span) : s.toJson.Plain := by
  refine .ofFields fun field hmem => ?_
  rcases List.mem_pair.mp hmem with rfl | rfl
  · exact .number s.start
  · exact .number s.stop

theorem ofJson?_toJson {s : Span} (h : s.Fits) : ofJson? s.toJson = some s := by
  have hfields : s.toJson.fields? ["start", "end"]
      = some [some (.ofNat s.start), some (.ofNat s.stop)] :=
    Json.fields?_ofFields (by simp) _
  simp only [ofJson?, hfields, Option.bind_eq_bind, Option.bind_some, Json.offset?_ofNat h.1,
    Json.offset?_ofNat h.2]

end Span

namespace Location

theorem plain_toJson (location : Location) : location.toJson.Plain := by
  refine .ofFields fun field hmem => ?_
  obtain rfl := List.mem_singleton.mp hmem
  exact location.span.plain_toJson

theorem ofJson?_toJson {location : Location} (h : location.span.Fits) :
    ofJson? location.toJson = some location := by
  have hfields : location.toJson.fields? ["span"] = some [some location.span.toJson] :=
    Json.fields?_ofFields (by simp) _
  simp only [ofJson?, hfields, Option.bind_eq_bind, Option.bind_some, Span.ofJson?_toJson h]

end Location

theorem Severity.ofJson?_toJson (severity : Severity) :
    ofJson? severity.toJson = some severity := by
  cases severity <;> rfl

namespace Diagnostic

/-- The offsets of the span, if there is one, are 64-bit numbers. -/
def Fits (d : Diagnostic) : Prop := ∀ s ∈ d.span, s.Fits

theorem plain_detailsToJson (details : Details) : (detailsToJson details).Plain := by
  refine .ofFields fun field hmem => ?_
  obtain ⟨entry, -, rfl⟩ := List.mem_map.mp hmem
  exact .text entry.2

theorem detailsOfJson?_toJson (details : Details) :
    detailsOfJson? (detailsToJson details) = some details := by
  rw [detailsOfJson?, detailsToJson, Json.strings?_ofFields, Option.map_some,
    SortedMap.ofList_entries]

theorem plain_toJson (d : Diagnostic) : d.toJson.Plain := by
  refine .ofFields fun field hmem => ?_
  simp only [List.mem_append, List.mem_cons, List.not_mem_nil, or_false, Option.mem_toList,
    Option.map_eq_some_iff] at hmem
  rcases hmem with ((rfl | rfl | rfl) | ⟨span, -, rfl⟩) | ⟨details, -, rfl⟩
  · exact .text d.id
  · exact .text d.severity.name
  · exact .text d.message
  · exact span.plain_toJson
  · exact plain_detailsToJson details

theorem fields?_toJson (d : Diagnostic) :
    d.toJson.fields? ["id", "severity", "message", "span", "context"]
      = some [some (.ofString d.id), some d.severity.toJson, some (.ofString d.message),
          d.span.map Span.toJson, d.details.map detailsToJson] := by
  obtain ⟨id, severity, message, span, details⟩ := d
  cases span <;> cases details <;> exact Json.fields?_ofFields (by simp) _

theorem ofJson?_toJson {d : Diagnostic} (h : d.Fits) : ofJson? d.toJson = some d := by
  have hspan : Json.optional? Span.ofJson? (d.span.map Span.toJson) = some d.span :=
    Json.optional?_map (fun s hs => Span.ofJson?_toJson (h s hs)) nofun
  have hdetails : Json.optional? detailsOfJson? (d.details.map detailsToJson) = some d.details :=
    Json.optional?_map (fun details _ => detailsOfJson?_toJson details) nofun
  simp only [ofJson?, fields?_toJson, Option.bind_eq_bind, Option.bind_some, hspan, hdetails,
    Severity.ofJson?_toJson]
  rfl

end Diagnostic

/-- Values whose documents are plain and are taken back survive being written. -/
theorem RoundTrips.of_json {α : Type} {InRange : α → Prop} {toJson : α → Json}
    {ofJson? : Json → Option α} (hplain : ∀ a, (toJson a).Plain)
    (hread : ∀ a, InRange a → ofJson? (toJson a) = some a) :
    RoundTrips InRange (fun a => (toJson a).write) (fun text => Json.parse? text >>= ofJson?) := by
  have hback : ∀ a, InRange a → Json.parse? (toJson a).write >>= ofJson? = some a := by
    intro a ha
    rw [Json.parse?_write (hplain a)]
    exact hread a ha
  refine ⟨hback, fun a b ha hb hwrite => ?_⟩
  have hsame := (hback a ha).symm.trans ((congrArg (Json.parse? · >>= ofJson?) hwrite).trans
    (hback b hb))
  exact Option.some.inj hsame

/-- Spans, locations and diagnostics are read back from the text they are written as, and different
ones are written differently; so absent details are told from empty ones. -/
theorem reports_round_trip :
    RoundTrips Span.Fits (fun s => s.toJson.write) (fun text => Json.parse? text >>= Span.ofJson?)
    ∧ RoundTrips (fun location : Location => location.span.Fits)
        (fun location => location.toJson.write)
        (fun text => Json.parse? text >>= Location.ofJson?)
    ∧ RoundTrips Diagnostic.Fits Diagnostic.serialize Diagnostic.deserialize?
    ∧ ∀ d : Diagnostic, d.Fits →
        { d with details := none }.serialize ≠ { d with details := some .empty }.serialize := by
  have hdiagnostics : RoundTrips Diagnostic.Fits Diagnostic.serialize Diagnostic.deserialize? :=
    .of_json Diagnostic.plain_toJson fun _ => Diagnostic.ofJson?_toJson
  refine ⟨.of_json Span.plain_toJson fun _ => Span.ofJson?_toJson,
    .of_json Location.plain_toJson fun _ => Location.ofJson?_toJson, hdiagnostics, ?_⟩
  intro d hd hsame
  have hdetails := hdiagnostics.distinct { d with details := none }
    { d with details := some .empty } hd hd hsame
  exact Option.some_ne_none _ (congrArg Diagnostic.details hdetails).symm

/-- An absent span is left out, and empty details are an empty object. -/
example :
    (Diagnostic.serialize ⟨"x", .warn, "\n", none, some .empty⟩).toList
      = ("\x7b\"id\":\"x\",\"severity\":\"warn\",\"message\":\"\\n\","
          ++ "\"context\":\x7b\x7d\x7d").toList := by
  decide

end Biparse
