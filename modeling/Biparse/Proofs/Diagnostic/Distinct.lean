import Biparse.Proofs.Integer.Literal
import Biparse.Proofs.Text.Joined
import Biparse.Record.Builder

/-!
# Diagnostics lose no error

An error can be read off its diagnostic (`diagnostics_lose_no_error`). The identifier gives the
code, and the code says which details there are and in what order they were written, so a diagnostic
gives back everything it was made of (`Diagnostic.ofCode_inj`). Most of an error stands in its
details, numbers and lists of numbers as text. What a setter or a constructor complained about stands
in the message alone, behind names that the details tell. Why a text is no literal stands nowhere,
but follows from the text.
-/

namespace Biparse

/-! ## Reports -/

namespace Diagnostic

namespace Code

/-- The names of the details that go with a code, in the order they are written. -/
def detailNames : Code → List String
  | .invalidLiteral => ["expected", "text"]
  | .overflow => ["value"]
  | .arity => ["expected", "found"]
  | .unknownProperty => ["record", "property"]
  | .typeMismatch => ["record", "property", "expected", "found"]
  | .setterFailed => ["record", "property"]
  | .constructorFailed => ["record"]
  | .missingConstructor => ["record", "with_context"]
  | .missingAccessor => ["record", "property"]
  | .invalidPermutation => ["order"]

theorem nodup_detailNames (code : Code) : code.detailNames.Nodup := by
  cases code <;> decide

/-- The code with an identifier is found among all codes. -/
theorem find?_id (code : Code) : (all.find? fun other => other.id == code.id) = some code := by
  cases code <;> rfl

theorem id_inj {code code' : Code} : code.id = code'.id ↔ code = code' := by
  refine ⟨fun h => Option.some.inj ?_, congrArg id⟩
  rw [← find?_id code, h, find?_id]

end Code

/-- A diagnostic gives back all it was made of. -/
theorem ofCode_inj {severity severity' : Severity} {code code' : Code} {message message' : String}
    {span span' : Option Span} {details details' : List (String × String)}
    (hnames : details.map Prod.fst = code.detailNames)
    (hnames' : details'.map Prod.fst = code'.detailNames) :
    ofCode severity code message span details = ofCode severity' code' message' span' details' ↔
      severity = severity' ∧ code = code' ∧ message = message' ∧ span = span'
        ∧ details = details' := by
  constructor
  · intro h
    obtain ⟨hid, hseverity, hmessage, hspan, hdetails⟩ := Diagnostic.mk.inj h
    obtain rfl := Code.id_inj.mp hid
    have hnodup := code.nodup_detailNames
    rw [← hnames] at hnodup
    exact ⟨hseverity, rfl, hmessage, hspan,
      (SortedMap.ofList_inj (hnames.trans hnames'.symm) hnodup).mp (Option.some.inj hdetails)⟩
  · rintro ⟨rfl, rfl, rfl, rfl, rfl⟩
    rfl

end Diagnostic

/-! ## Numbers in details -/

theorem Integer.print_inj {n m : Int64} : print n = print m ↔ n = m := by
  refine ⟨fun h => Except.ok.inj (ε := Fault) ?_, congrArg print⟩
  calc
    .ok n = parse (print n) := (parse_eq_ok_iff.mpr (denotes_toString n.toInt)).symm
    _ = parse (print m) := by rw [h]
    _ = .ok m := parse_eq_ok_iff.mpr (denotes_toString m.toInt)

theorem showIndices_inj {order order' : List Nat} :
    showIndices order = showIndices order' ↔ order = order' := by
  have hlist : ∀ order, (showIndices order).toList
      = '[' :: (joined ", ".toList (Nat.toDigits 10) true order ++ [']']) := by
    intro order
    simp [showIndices, joined, String.toList_intercalate, Function.comp_def]
  -- Behind a number there is a comma or nothing.
  have hlater : ∀ later, ∀ c ∈ (joined ", ".toList (Nat.toDigits 10) false later).head?,
      c.isDigit = false := by
    intro later c hc
    cases later with
    | nil => simp at hc
    | cons n later =>
        rw [joined_cons] at hc
        obtain rfl : ',' = c := Option.some.inj hc
        rfl
  refine ⟨fun h => ?_, congrArg showIndices⟩
  have htext := congrArg String.toList h
  rw [hlist, hlist] at htext
  exact joined_inj (fun _ => Nat.toDigits_ne_nil)
    (fun _ _ later later' => Decimal.toDigits_append_inj (hlater later) (hlater later'))
    (List.append_cancel_right (List.cons.inj htext).2)

/-! ## Errors of forward steps -/

namespace BuildError

theorem names_details (e : BuildError) : e.details.map Prod.fst = e.code.detailNames := by
  cases e <;> rfl

/-- The code tells the kind of error, and the details tell the names in the message, behind which
the complaint stands. -/
theorem eq_of_report {e e' : BuildError} (hcode : e.code = e'.code)
    (hmessage : e.message = e'.message) (hdetails : e.details = e'.details) : e = e' := by
  cases e with
  | unknownProperty record property =>
      cases e' <;> cases hcode
      simpa [details] using hdetails
  | typeMismatch record property expected found =>
      cases e' <;> cases hcode
      simpa [details] using hdetails
  | setter record property complaint =>
      cases e' <;> cases hcode
      obtain ⟨rfl, rfl⟩ : record = _ ∧ property = _ := by simpa [details] using hdetails
      rw [(String.append_right_inj _).mp hmessage]
  | constructor record complaint =>
      cases e' <;> cases hcode
      obtain rfl : record = _ := by simpa [details] using hdetails
      rw [(String.append_right_inj _).mp hmessage]

end BuildError

namespace Error

/-- The code an error is reported under. -/
def code : Error → Diagnostic.Code
  | format _ => .invalidLiteral
  | build e => e.code
  | overflow _ => .overflow
  | arity .. => .arity

/-- The named details of an error. -/
def details : Error → List (String × String)
  | format e => [("expected", "integer"), ("text", e.text)]
  | build e => e.details
  | overflow value => [("value", Integer.print value)]
  | arity expected found => [("expected", toString expected), ("found", toString found)]

theorem toDiagnostic_eq [Glyphs] (e : Error) (span : Option Span) :
    e.toDiagnostic span = .ofCode .error e.code e.message span e.details := by
  cases e <;> rfl

theorem names_details (e : Error) : e.details.map Prod.fst = e.code.detailNames := by
  cases e with
  | build e => exact e.names_details
  | _ => rfl

/-- An error that can come about: format errors are those of the literal mapping. -/
def Genuine : Error → Prop
  | format e => ∃ (context : Span) (text : String),
      Integer.literal.forward context text = .error (.format e)
  | _ => True

/-- The reason of a format error is what is wrong with its text. -/
theorem Genuine.parse_eq {e : FormatError} (h : (format e).Genuine) :
    Integer.parse e.text = .error e.reason := by
  obtain ⟨context, text, hforward⟩ := h
  simp only [Integer.literal] at hforward
  cases hparse : Integer.parse text with
  | ok n => simp [hparse, Except.mapError] at hforward
  | error reason =>
      rw [hparse] at hforward
      obtain rfl : ⟨text, reason⟩ = e := format.inj (Except.error.inj hforward)
      exact hparse

theorem eq_of_report [Glyphs] {e e' : Error} (h : e.Genuine) (h' : e'.Genuine)
    (hcode : e.code = e'.code)
    (hmessage : e.message = e'.message) (hdetails : e.details = e'.details) : e = e' := by
  cases e with
  | build e =>
      cases e' with
      | build e' => exact congrArg build (BuildError.eq_of_report hcode hmessage hdetails)
      | _ => cases e <;> cases hcode
  | format e =>
      cases e' with
      | format e' =>
          obtain ⟨text, reason⟩ := e
          obtain ⟨text', reason'⟩ := e'
          obtain rfl : text = text' := by simpa [details] using hdetails
          obtain rfl : reason = reason' :=
            Except.error.inj (h.parse_eq.symm.trans h'.parse_eq)
          rfl
      | build e' => cases e' <;> cases hcode
      | _ => cases hcode
  | overflow value =>
      cases e' with
      | overflow value' =>
          have hvalue : Integer.print value = Integer.print value' := by
            simpa [details] using hdetails
          rw [Integer.print_inj.mp hvalue]
      | build e' => cases e' <;> cases hcode
      | _ => cases hcode
  | arity expected found =>
      cases e' with
      | arity expected' found' =>
          have hnumbers : toString expected = toString expected'
              ∧ toString found = toString found' := by
            simpa [details] using hdetails
          rw [Decimal.toString_inj.mp hnumbers.1, Decimal.toString_inj.mp hnumbers.2]
      | build e' => cases e' <;> cases hcode
      | _ => cases hcode

end Error

/-! ## Errors of configurations -/

namespace ConfigError

/-- The code an error is reported under. -/
def code : ConfigError → Diagnostic.Code
  | missingConstructor .. => .missingConstructor
  | missingAccessor .. => .missingAccessor
  | invalidPermutation _ => .invalidPermutation

/-- The named details of an error. -/
def details : ConfigError → List (String × String)
  | missingConstructor record withContext =>
    [("record", record), ("with_context", if withContext then "true" else "false")]
  | missingAccessor record property => [("record", record), ("property", property)]
  | invalidPermutation order => [("order", showIndices order)]

theorem toDiagnostic_eq (e : ConfigError) :
    e.toDiagnostic = .ofCode .error e.code e.message none e.details := by
  cases e <;> rfl

theorem names_details (e : ConfigError) : e.details.map Prod.fst = e.code.detailNames := by
  cases e <;> rfl

theorem eq_of_details {e e' : ConfigError} (hcode : e.code = e'.code)
    (hdetails : e.details = e'.details) : e = e' := by
  cases e with
  | missingConstructor record withContext =>
      have hflag : ∀ flag flag' : Bool,
          (if flag then "true" else "false") = (if flag' then "true" else "false") →
            flag = flag' := by
        decide
      cases e' <;> cases hcode
      simp only [details, List.cons.injEq, Prod.mk.injEq, true_and, and_true] at hdetails
      rw [hdetails.1, hflag _ _ hdetails.2]
  | missingAccessor record property =>
      cases e' <;> cases hcode
      simpa [details] using hdetails
  | invalidPermutation order =>
      cases e' <;> cases hcode
      simpa [details, showIndices_inj] using hdetails

/-- Configurations and forward steps fail under different codes. -/
theorem code_ne (e : ConfigError) (e' : Error) : e'.code ≠ e.code := by
  cases e' with
  | build e' => cases e' <;> cases e <;> exact nofun
  | _ => cases e <;> exact nofun

end ConfigError

/-! ## Warnings -/

namespace RecordBuilder

variable [Payloads] {R : Type} {builder : RecordBuilder R} {context : Span} {record result : R}
  {warnings : List Diagnostic}

theorem severity_of_mem_writeAll {entries : List (String × Value)}
    (hout : builder.writeAll context record entries = .ok (result, warnings)) :
    ∀ warning ∈ warnings, warning.severity = .warn := by
  induction entries generalizing record warnings with
  | nil =>
      obtain ⟨-, rfl⟩ := writeAll_nil_eq_ok_iff.mp hout
      exact fun _ hmem => nomatch hmem
  | cons entry rest ih =>
      obtain ⟨record', own, later, htaken, hrest, rfl⟩ := writeAll_cons_eq_ok_iff.mp hout
      rw [List.forall_mem_append]
      refine ⟨?_, ih hrest⟩
      cases htaken with
      | written _ _ => exact fun _ hmem => nomatch hmem
      | skipped _ _ => exact List.forall_mem_singleton.mpr rfl

theorem severity_of_mem_warnings {properties : PropertyMap Value}
    (hout : builder.buildWithWarnings context properties = .ok (result, warnings)) :
    ∀ warning ∈ warnings, warning.severity = .warn := by
  rw [buildWithWarnings] at hout
  cases hstart : builder.construct context with
  | error complaint => simp [hstart] at hout
  | ok start =>
      rw [hstart] at hout
      exact severity_of_mem_writeAll hout

end RecordBuilder

/-! ## All diagnostics -/

/-- Errors that can come about are told apart by their diagnostics, with their spans; so are errors
of configurations, whatever the names and indices in them. No diagnostic reports errors of both
kinds, and none of them is a warning about a skipped property. -/
theorem diagnostics_lose_no_error [Glyphs] [Payloads] :
    (∀ (e e' : Error) (span span' : Option Span), e.Genuine → e'.Genuine →
      e.toDiagnostic span = e'.toDiagnostic span' → e = e' ∧ span = span')
    ∧ (∀ e e' : ConfigError, e.toDiagnostic = e'.toDiagnostic → e = e')
    ∧ (∀ (e : Error) (span : Option Span) (e' : ConfigError),
      e.toDiagnostic span ≠ e'.toDiagnostic)
    ∧ ∀ (R : Type) (builder : RecordBuilder R) (context : Span) (properties : PropertyMap Value)
        (result : R) (warnings : List Diagnostic),
        builder.buildWithWarnings context properties = .ok (result, warnings) →
          ∀ warning ∈ warnings, (∀ (e : Error) (span : Option Span), e.toDiagnostic span ≠ warning)
            ∧ ∀ e : ConfigError, e.toDiagnostic ≠ warning := by
  refine ⟨fun e e' span span' h h' heq => ?_, fun e e' heq => ?_, fun e span e' heq => ?_,
    fun R builder context properties result warnings hout warning hmem => ?_⟩
  · rw [e.toDiagnostic_eq, e'.toDiagnostic_eq,
      Diagnostic.ofCode_inj e.names_details e'.names_details] at heq
    obtain ⟨-, hcode, hmessage, hspan, hdetails⟩ := heq
    exact ⟨Error.eq_of_report h h' hcode hmessage hdetails, hspan⟩
  · rw [e.toDiagnostic_eq, e'.toDiagnostic_eq,
      Diagnostic.ofCode_inj e.names_details e'.names_details] at heq
    obtain ⟨-, hcode, -, -, hdetails⟩ := heq
    exact ConfigError.eq_of_details hcode hdetails
  · rw [e.toDiagnostic_eq, e'.toDiagnostic_eq,
      Diagnostic.ofCode_inj e.names_details e'.names_details] at heq
    exact e'.code_ne e heq.2.1
  · have hwarn := RecordBuilder.severity_of_mem_warnings hout warning hmem
    constructor
    · rintro e span rfl
      rw [e.toDiagnostic_eq] at hwarn
      exact nomatch hwarn
    · rintro e rfl
      rw [e.toDiagnostic_eq] at hwarn
      exact nomatch hwarn

/-- The reason of a format error is not reported, so one that is not true of the text is lost. -/
example [Glyphs] : (Error.format ⟨"x", .invalidDigit⟩).toDiagnostic none
    = (Error.format ⟨"x", .tooLarge⟩).toDiagnostic none :=
  rfl

end Biparse
