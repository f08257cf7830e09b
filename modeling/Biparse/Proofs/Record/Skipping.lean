import Biparse.Proofs.PropertyMap.Recency
import Biparse.Proofs.Record.Bijection

/-!
# Skipping unknown names

A builder that skips unknown names and a strict one that is given the known names only go through
the same writes: a skipped name leaves the record as it is, so every setter sees what it would have
seen without it (`writeAll_of_skips`). The setters may fail, and may look at all earlier writes. So
skipping is rejecting on the known names, with one warning for each name left out
(`skipping_is_rejecting_on_known`), and a creator that skips is the builder of the whole shape on
the listed names.
-/

namespace Biparse

section AnyPayloads

variable [Payloads]

/-- The warning about a skipped name. -/
def skipWarning (record : String) (context : Span) (property : String) : Diagnostic where
  id := "ISX2001"
  severity := .warn
  message := "skipped unknown property \x60" ++ property ++ "\x60 of " ++ record
  span := some context
  details := some (.ofList [("record", record), ("property", property)])

namespace RecordBuilder

variable {R : Type}

/-- A builder that skips every name outside `keep` and knows the others as `full` does. -/
structure SkipsAllBut (builder full : RecordBuilder R) (keep : String → Bool) : Prop where
  record_eq : builder.record = full.record
  construct_eq : builder.construct = full.construct
  get?_setters : ∀ p, builder.setters.get? p = if keep p then full.setters.get? p else none
  known : ∀ p, keep p = true → ∃ accessor, full.setters.get? p = some accessor
  unknown_eq : builder.unknown = .skip

section SkipsAllBut

variable {builder full : RecordBuilder R} {keep : String → Bool}

/-- Both run through the same records; where one setter fails, the run of the other is at it too. -/
theorem writeAll_of_skips (h : builder.SkipsAllBut full keep) (context : Span) (record : R)
    (entries : List (String × Value)) :
    builder.writeAll context record entries
      = (full.writeAll context record (entries.filter fun entry => keep entry.1)).map fun out =>
          (out.1, (entries.filter fun entry => !keep entry.1).map fun entry =>
            builder.skipped context entry.1) := by
  induction entries generalizing record with
  | nil => rfl
  | cons entry rest ih =>
      obtain ⟨key, value⟩ := entry
      have hsetter := h.get?_setters key
      cases hkeep : keep key with
      | true =>
          obtain ⟨accessor, haccessor⟩ := h.known key hkeep
          rw [hkeep, if_pos rfl, haccessor] at hsetter
          simp only [List.filter_cons, hkeep, if_true, Bool.not_true, Bool.false_eq_true, if_false]
          rw [writeAll, writeAll, hsetter, haccessor]
          simp only
          cases accessor.write record value with
          | error failure => simp [Except.map, h.record_eq]
          | ok record' => exact ih record'
      | false =>
          rw [hkeep, if_neg Bool.false_ne_true] at hsetter
          simp only [List.filter_cons, hkeep, if_true, Bool.not_false, Bool.false_eq_true, if_false]
          rw [writeAll, hsetter, h.unknown_eq, ih record]
          cases full.writeAll context record (rest.filter fun entry => keep entry.1) <;> rfl

theorem buildWithWarnings_of_skips (h : builder.SkipsAllBut full keep) (context : Span)
    (m : PropertyMap Value) :
    builder.buildWithWarnings context m
      = (full.build context (m.filterKeys keep)).map fun record =>
          (record, (m.keys.filter fun key => !keep key).map (skipWarning full.record context)) := by
  have hwarnings : (m.entries.filter fun entry => !keep entry.1).map
      (fun entry => builder.skipped context entry.1)
        = (m.keys.filter fun key => !keep key).map (skipWarning full.record context) := by
    rw [PropertyMap.keys, List.filter_map, List.map_map, ← h.record_eq]
    rfl
  unfold build buildWithWarnings
  rw [h.construct_eq]
  cases full.construct context with
  | error complaint => simp [Except.map, h.record_eq]
  | ok start =>
      simp only [writeAll_of_skips h, hwarnings]
      rw [show (m.filterKeys keep).entries = m.entries.filter fun entry => keep entry.1 from rfl]
      cases full.writeAll context start (m.entries.filter fun entry => keep entry.1) <;> rfl

theorem forward_of_skips (h : builder.SkipsAllBut full keep) (context : Span)
    (m : PropertyMap Value) :
    builder.mapping.forward context m = full.mapping.forward context (m.filterKeys keep) := by
  have hbuild : builder.build context m = full.build context (m.filterKeys keep) := by
    rw [build, buildWithWarnings_of_skips h]
    cases full.build context (m.filterKeys keep) <;> rfl
  simp only [mapping, hbuild]

end SkipsAllBut

theorem skipsAllBut_hasProperty (shape : RecordShape R) (make : Span → Except String R)
    (unknown : UnknownPolicy) :
    (ofShape shape make .skip).SkipsAllBut (ofShape shape make unknown) shape.hasProperty where
  record_eq := rfl
  construct_eq := rfl
  get?_setters p := by
    rw [get?_setters_ofShape, get?_setters_ofShape, RecordShape.hasProperty,
      SortedMap.contains_eq_isSome_get?, RecordShape.accessor?]
    cases shape.accessors.get? p <;> rfl
  known p hp := by
    rw [RecordShape.hasProperty, SortedMap.contains_eq_isSome_get?] at hp
    rw [get?_setters_ofShape]
    exact Option.isSome_iff_exists.mp hp
  unknown_eq := rfl

theorem writeAll_warnings_eq_nil {builder : RecordBuilder R} (hreject : builder.unknown = .reject)
    {context : Span} {record result : R} {entries : List (String × Value)}
    {warnings : List Diagnostic}
    (hout : builder.writeAll context record entries = .ok (result, warnings)) : warnings = [] := by
  induction entries generalizing record warnings with
  | nil => exact (writeAll_nil_eq_ok_iff.mp hout).2.symm
  | cons entry rest ih =>
      obtain ⟨record', own, later, htaken, hrest, rfl⟩ := writeAll_cons_eq_ok_iff.mp hout
      cases htaken with
      | written _ _ => exact ih hrest
      | skipped _ hskip =>
          rw [hreject] at hskip
          cases hskip

/-- A builder that rejects unknown names has nothing to warn about. -/
theorem warnings_eq_nil {builder : RecordBuilder R} (hreject : builder.unknown = .reject)
    {context : Span} {m : PropertyMap Value} {record : R} {warnings : List Diagnostic}
    (hout : builder.buildWithWarnings context m = .ok (record, warnings)) : warnings = [] := by
  rw [buildWithWarnings] at hout
  cases hstart : builder.construct context with
  | error complaint => simp [hstart] at hout
  | ok start =>
      rw [hstart] at hout
      exact writeAll_warnings_eq_nil hreject hout

end RecordBuilder

theorem RecordCreator.skipsAllBut_ofListed {R : Type} {shape : RecordShape R}
    {listed : List String}
    (hregistered : ∀ p ∈ listed, ∃ accessor, shape.accessor? p = some accessor)
    (make : Span → Except String R) (unknown : UnknownPolicy) :
    (ofListed shape listed make .skip).builder.SkipsAllBut
      (RecordBuilder.ofShape shape make unknown) listed.contains where
  record_eq := rfl
  construct_eq := rfl
  get?_setters p := by
    rw [RecordBuilder.get?_setters_ofShape]
    exact SortedMap.get?_filterKeys shape.accessors listed.contains p
  known p hp := by
    rw [RecordBuilder.get?_setters_ofShape]
    exact hregistered p (List.contains_iff_mem.mp hp)
  unknown_eq := rfl

/-- Skipping agrees with rejecting on the known names of a map, in the record and in the failure;
besides there is one warning for each unknown name, in the order of the map. Rejecting warns of
nothing. A creator that skips agrees with a builder of the whole shape on the listed names. -/
theorem skipping_is_rejecting_on_known {R : Type} (shape : RecordShape R) (withContext : Bool)
    {skipping rejecting : RecordBuilder R}
    (hskipping : RecordBuilder.new shape ⟨withContext, .skip⟩ = .ok skipping)
    (hrejecting : RecordBuilder.new shape ⟨withContext, .reject⟩ = .ok rejecting) :
    (∀ context m, skipping.buildWithWarnings context m
      = (rejecting.build context (m.filterKeys shape.hasProperty)).map fun record =>
          (record, (m.keys.filter fun key => !shape.hasProperty key).map
            (skipWarning shape.name context)))
    ∧ (∀ context m record warnings,
      rejecting.buildWithWarnings context m = .ok (record, warnings) → warnings = [])
    ∧ ∀ listed creator policy full,
      RecordCreator.new shape listed ⟨withContext, .skip⟩ = .ok creator →
      RecordBuilder.new shape ⟨withContext, policy⟩ = .ok full →
      ∀ context m, creator.mapping.forward context m
        = full.mapping.forward context (m.filterKeys listed.contains) := by
  obtain ⟨make, hmake, rfl⟩ := RecordBuilder.new_eq_ok_iff.mp hskipping
  obtain ⟨_, hmake', rfl⟩ := RecordBuilder.new_eq_ok_iff.mp hrejecting
  obtain rfl := Except.ok.inj (hmake.symm.trans hmake')
  refine ⟨fun context m => ?_, fun context m record warnings h =>
    RecordBuilder.warnings_eq_nil rfl h, ?_⟩
  · exact RecordBuilder.buildWithWarnings_of_skips
      (RecordBuilder.skipsAllBut_hasProperty shape make .reject) context m
  · intro listed creator policy full hcreator hfull context m
    obtain ⟨hregistered, _, hmake', rfl⟩ := RecordCreator.new_eq_ok_iff.mp hcreator
    obtain rfl := Except.ok.inj (hmake.symm.trans hmake')
    obtain ⟨_, hmake', rfl⟩ := RecordBuilder.new_eq_ok_iff.mp hfull
    obtain rfl := Except.ok.inj (hmake.symm.trans hmake')
    exact RecordBuilder.forward_of_skips
      (RecordCreator.skipsAllBut_ofListed hregistered make policy) context m

end AnyPayloads

open scoped Payloads in
/-- Placed items from a map with an unknown name on either side of a known one, and from a list that
names only the property the map does not bind. -/
theorem skipping_is_rejecting_on_known_placed :
    ∃ skipping rejecting creator,
      RecordBuilder.new (PlacedItem.shape "placed") ⟨true, .skip⟩ = .ok skipping
      ∧ RecordBuilder.new (PlacedItem.shape "placed") ⟨true, .reject⟩ = .ok rejecting
      ∧ RecordCreator.new (PlacedItem.shape "placed") ["b"] ⟨true, .skip⟩ = .ok creator
      ∧ skipping.buildWithWarnings ⟨3, 8⟩
          (.ofList [("c", .tag ⟨none⟩), ("a", .string "x"), ("d", .int 1)])
        = .ok (⟨⟨⟨3, 8⟩⟩, some "x", none⟩, ["c", "d"].map (skipWarning "placed" ⟨3, 8⟩))
      ∧ creator.mapping.forward ⟨3, 8⟩
          (.ofList [("c", .tag ⟨none⟩), ("a", .string "x"), ("d", .int 1)])
        = .ok (PlacedItem.blankAt ⟨3, 8⟩) := by
  obtain ⟨hskips, -, hcreates⟩ :=
    skipping_is_rejecting_on_known (PlacedItem.shape "placed") true rfl rfl
  refine ⟨_, _, _, rfl, rfl, rfl, ?_, ?_⟩
  · rw [hskips]
    rfl
  · rw [hcreates ["b"] _ .reject _ rfl rfl]
    rfl

end Biparse
