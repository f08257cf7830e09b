import Biparse.Proofs.Grammar.Items
import Biparse.Proofs.Grammar.Promotion
import Biparse.Proofs.Record.History
import Biparse.Proofs.Record.Skipping

/-!
# What is made of a list of entries

The same entries may end in a creator of items, in a builder of items, or in a builder of one-text
records, which have no place for what the minus sign writes. All of them see nothing but the map
that the entries write, and that is the map of an item (`Item.boundBy_ofList`). So it is enough to
say what each makes of such a map: the creator and the builder of items make the item
(`RecordCreator.builder_ofListed`), a strict builder of one-text records makes one if the item has
no second text (`Tag.forward_strict_iff`), and one that skips unknown names always does
(`Tag.forward_skipping_iff`).

A mapping that fails behind a text fails the whole text, and a builder takes nothing apart, so what
it has made is never printed (`record_consumers_agree`).
-/

namespace Biparse

variable [Payloads]

/-- A creator that lists every property of a shape builds as the builder of the shape does. -/
theorem RecordCreator.builder_ofListed {R : Type} {shape : RecordShape R} {listed : List String}
    (hcovers : ∀ p ∈ shape.properties, p ∈ listed) (make : Span → Except String R)
    (unknown : UnknownPolicy) :
    (ofListed shape listed make unknown).builder = .ofShape shape make unknown := by
  have hsame : shape.accessors.filterKeys listed.contains
      = shape.accessors.filterKeys fun _ => true := by
    simp only [SortedMap.filterKeys, SortedMap.mk.injEq]
    refine List.filter_congr fun entry hentry => ?_
    exact List.contains_iff_mem.mpr (hcovers entry.1 (List.mem_map_of_mem hentry))
  rw [ofListed, RecordBuilder.ofShape, hsame]

namespace Item

/-- The builder of items, as it is unless configured otherwise. -/
def builder : RecordBuilder Item := .ofFields Ty.item.name blank [fieldA, fieldB]

theorem builder_eq_creator {listed : List String} (hlisted : ListsBoth listed) :
    builder = (creator listed).builder := by
  refine (RecordCreator.builder_ofListed (fun p hp => (hlisted p).mpr ?_) _ _).symm
  obtain ⟨found, hfound⟩ := RecordShape.mem_properties_iff.mp hp
  obtain ⟨sign, hkey, -⟩ := accessor?_eq_some_iff.mp hfound
  exact ⟨sign, hkey⟩

end Item

/-! ## One-text records -/

namespace Tag

/-- The builder of one-text records under a policy. -/
def builder (unknown : UnknownPolicy) : RecordBuilder Tag :=
  .ofShape shape (fun _ => .ok ⟨none⟩) unknown

theorem new_eq_builder (unknown : UnknownPolicy) :
    RecordBuilder.new shape { unknown := unknown } = .ok (builder unknown) :=
  RecordBuilder.new_eq_ok_iff.mpr
    ⟨_, RecordShape.constructor_foldl_withProperty _ false, rfl⟩

section

variable {item : Item} {m : PropertyMap Value} {context : Span} {r : Tag}

/-- The map of an item makes a one-text record exactly when it binds the first text only. -/
theorem forward_strict_iff (h : item.BoundBy m) :
    (builder .reject).mapping.forward context m = .ok r ↔ item.b = none ∧ r.a = item.a := by
  have hrejects : (builder .reject).RejectsAllBut shape ["a"] :=
    RecordBuilder.rejectsAllBut_ofFields independent_fields.names_inj
  have hbuilds : (∃ r, (builder .reject).build context m = .ok r) ↔
      ∀ key value, m.get? key = some value → shape.Accepts ["a"] key value :=
    RecordBuilder.build_isOk_iff lawful_shape hrejects rfl
  have hmade : ∀ r, (builder .reject).build context m = .ok r → item.b = none ∧ r.a = item.a := by
    intro r hbuild
    constructor
    · cases hb : item.b with
      | none => rfl
      | some text =>
          have hbound : m.get? "b" = some (.string text) :=
            (h.get? .minus).trans (congrArg (Option.map Value.string) hb)
          obtain ⟨hlisted, -⟩ := hbuilds.mp ⟨r, hbuild⟩ _ _ hbound
          simp at hlisted
    · have hread := RecordBuilder.read?_build lawful_shape hrejects rfl hbuild
        (List.mem_singleton_self "a")
      rw [read?_shape, read?_shape, Option.map_none, Option.or_none] at hread
      exact Option.map_injective (fun _ _ => Value.string_inj.mp) (hread.trans (h.get? .plus))
  rw [RecordBuilder.forward_eq_ok_iff]
  refine ⟨hmade r, fun ⟨hb, ha⟩ => ?_⟩
  obtain ⟨r', hbuild⟩ := hbuilds.mpr fun key value hvalue => by
    obtain ⟨sign, rfl⟩ := h.only key value hvalue
    rw [h.get?, Option.map_eq_some_iff] at hvalue
    obtain ⟨text, htext, rfl⟩ := hvalue
    cases sign with
    | plus => exact ⟨List.mem_singleton_self "a", field.accessor, rfl, rfl⟩
    | minus =>
        rw [show item.get .minus = item.b from rfl, hb] at htext
        cases htext
  have hsame : r' = r := congrArg Tag.mk ((hmade r' hbuild).2.trans ha.symm)
  rw [← hsame]
  exact hbuild

/-- Without what the minus sign writes, the map is that of the item without its second text. -/
theorem boundBy_filterKeys (h : item.BoundBy m) :
    (Item.mk item.a none).BoundBy (m.filterKeys shape.hasProperty) where
  get? sign := by
    rw [PropertyMap.get?_filterKeys]
    cases sign with
    | plus => exact (if_pos rfl).trans (h.get? .plus)
    | minus => rfl
  only key value hvalue := by
    rw [PropertyMap.get?_filterKeys, Option.ite_none_right_eq_some] at hvalue
    exact h.only key value hvalue.2

/-- Every map of an item makes a one-text record if unknown names are skipped. -/
theorem forward_skipping_iff (h : item.BoundBy m) :
    (builder .skip).mapping.forward context m = .ok r ↔ r.a = item.a := by
  have hskips := RecordBuilder.skipsAllBut_hasProperty shape (fun _ => .ok ⟨none⟩) .reject
  rw [builder, RecordBuilder.forward_of_skips hskips]
  exact (forward_strict_iff (boundBy_filterKeys h)).trans ⟨And.right, fun ha => ⟨rfl, ha⟩⟩

end

end Tag

/-! ## Whole grammars -/

namespace Grammar

/-- One-text records made by a builder. -/
def builtTags (form : EntryForm) (config : BuilderConfig) : Except ConfigError (Grammar Tag) :=
  (RecordBuilder.new Tag.shape config).map (ofBuilder form)

/-- Prints no value, under whatever bound. -/
def RefusesAll {T : Type} (g : Grammar T) : Prop :=
  ∀ value, g.print? value = none ∧ ∀ bound, g.rule.print bound value = .refused

theorem ofBuilder_refusesAll {R : Type} (form : EntryForm) (builder : RecordBuilder R) :
    (ofBuilder form builder).RefusesAll := by
  intro value
  have hrefused : ∀ bound, (ofBuilder form builder).rule.print bound value = .refused := by
    intro bound
    simp [ofBuilder, recordRule, Rule.print, Reduction.print, RecordBuilder.mapping]
  refine ⟨?_, hrefused⟩
  rw [Grammar.print?, hrefused]
  rfl

section

variable {swapped : Bool} {listed : List String} {t : String}

theorem builtItems_eq_ok : builtItems { swapped := swapped } {}
    = .ok (ofBuilder { swapped := swapped } Item.builder) :=
  congrArg (Except.map _) (RecordBuilder.new_ofFields _ _ _)

theorem builtTags_eq_ok (unknown : UnknownPolicy) :
    builtTags { swapped := swapped } { unknown := unknown }
      = .ok (ofBuilder { swapped := swapped } (Tag.builder unknown)) :=
  congrArg (Except.map _) (Tag.new_eq_builder unknown)

/-- Of the mapping at the end, reading uses the forward direction only. -/
theorem recordRule_parse_congr {R : Type} {form : EntryForm}
    {mapping mapping' : Mapping (PropertyMap Value) R} (h : mapping.forward = mapping'.forward) :
    (recordRule form mapping).parseAll? t = (recordRule form mapping').parseAll? t := by
  rw [recordRule, recordRule, parseAll?_reduce_apply, parseAll?_reduce_apply, h]

theorem builtItems_parse? (hlisted : Item.ListsBoth listed) :
    (ofBuilder { swapped := swapped } Item.builder).parse? t
      = (itemGrammar swapped listed).parse? t := by
  rw [Item.builder_eq_creator hlisted]
  exact recordRule_parse_congr rfl

/-- What is made of a text depends on the item that a creator makes of it. -/
theorem parse_ofBuilder_iff (hlisted : Item.ListsBoth listed) {unknown : UnknownPolicy}
    {Makes : Item → Tag → Prop}
    (hforward : ∀ {item : Item} {m : PropertyMap Value} {context : Span} {r : Tag},
      item.BoundBy m → ((Tag.builder unknown).mapping.forward context m = .ok r ↔ Makes item r))
    {r : Tag} :
    (ofBuilder { swapped := swapped } (Tag.builder unknown)).parse? t = some r ↔
      ∃ item, (itemGrammar swapped listed).parse? t = some item ∧ Makes item r := by
  simp only [itemGrammar_parse_iff hlisted]
  refine recordRule_parse_iff.trans ?_
  simp only [hforward (Item.boundBy_ofList _)]
  constructor
  · rintro ⟨es, ht, hmakes⟩
    exact ⟨_, ⟨es, ht, rfl⟩, hmakes⟩
  · rintro ⟨_, ⟨es, ht, rfl⟩, hmakes⟩
    exact ⟨es, ht, hmakes⟩

end

end Grammar

/-- A creator and a builder of items read every text alike. A strict builder of one-text records
reads the texts of these without an entry behind a minus sign, and one that skips unknown names
reads them all; what they make of a text has the first text of the item. Builders refuse to print
whatever they have made. -/
theorem record_consumers_agree (swapped : Bool) :
    ∃ created built strict skipping,
      Grammar.items { swapped := swapped } ["a", "b"] {} = .ok created
      ∧ Grammar.builtItems { swapped := swapped } {} = .ok built
      ∧ Grammar.builtTags { swapped := swapped } {} = .ok strict
      ∧ Grammar.builtTags { swapped := swapped } { unknown := .skip } = .ok skipping
      ∧ (∀ t, built.parse? t = created.parse? t)
      ∧ (∀ t, (∃ item, created.parse? t = some item) ↔
        ∃ es : List Entry, t = ",".intercalate (es.map Entry.text))
      ∧ (∀ t, (∃ r, strict.parse? t = some r) ↔ (∃ item, created.parse? t = some item)
        ∧ ∀ es : List Entry, t = ",".intercalate (es.map Entry.text) → ∀ e ∈ es, e.sign ≠ .minus)
      ∧ (∀ t, (∃ r, skipping.parse? t = some r) ↔ ∃ item, created.parse? t = some item)
      ∧ (∀ t r, strict.parse? t = some r ∨ skipping.parse? t = some r →
        ∃ item, created.parse? t = some item ∧ r.a = item.a)
      ∧ built.RefusesAll ∧ strict.RefusesAll ∧ skipping.RefusesAll := by
  have hlisted := Item.listsBoth
  have hcreated : ∀ t item, (Grammar.itemGrammar swapped ["a", "b"]).parse? t = some item ↔
      ∃ es : List Entry, t = ",".intercalate (es.map Entry.text) ∧ item = .ofEntries es :=
    fun t item => Grammar.itemGrammar_parse_iff hlisted
  have hstrict : ∀ t r,
      (Grammar.ofBuilder { swapped := swapped } (Tag.builder .reject)).parse? t = some r ↔
        ∃ item, (Grammar.itemGrammar swapped ["a", "b"]).parse? t = some item
          ∧ item.b = none ∧ r.a = item.a :=
    fun t r => Grammar.parse_ofBuilder_iff hlisted Tag.forward_strict_iff
  have hskipping : ∀ t r,
      (Grammar.ofBuilder { swapped := swapped } (Tag.builder .skip)).parse? t = some r ↔
        ∃ item, (Grammar.itemGrammar swapped ["a", "b"]).parse? t = some item ∧ r.a = item.a :=
    fun t r => Grammar.parse_ofBuilder_iff hlisted Tag.forward_skipping_iff
  have hminus : ∀ es : List Entry, (Item.ofEntries es).b = none ↔ ∀ e ∈ es, e.sign ≠ .minus :=
    fun es => Item.lastWord_eq_none_iff
  have hofEntries : ∀ es : List Entry,
      (Grammar.itemGrammar swapped ["a", "b"]).parse? (",".intercalate (es.map Entry.text))
        = some (.ofEntries es) := fun es => (hcreated _ _).mpr ⟨es, rfl, rfl⟩
  refine ⟨.itemGrammar swapped ["a", "b"], .ofBuilder { swapped := swapped } Item.builder,
    .ofBuilder { swapped := swapped } (Tag.builder .reject),
    .ofBuilder { swapped := swapped } (Tag.builder .skip), Grammar.items_eq_ok hlisted,
    Grammar.builtItems_eq_ok, Grammar.builtTags_eq_ok .reject, Grammar.builtTags_eq_ok .skip,
    fun t => Grammar.builtItems_parse? hlisted, fun t => ?_, fun t => ?_, fun t => ?_,
    fun t r => ?_, Grammar.ofBuilder_refusesAll _ _, Grammar.ofBuilder_refusesAll _ _,
    Grammar.ofBuilder_refusesAll _ _⟩
  · constructor
    · rintro ⟨item, hitem⟩
      obtain ⟨es, ht, -⟩ := (hcreated t item).mp hitem
      exact ⟨es, ht⟩
    · rintro ⟨es, rfl⟩
      exact ⟨_, hofEntries es⟩
  · simp only [hstrict]
    constructor
    · rintro ⟨r, item, hitem, hb, -⟩
      refine ⟨⟨item, hitem⟩, fun es ht => ?_⟩
      obtain rfl : .ofEntries es = item :=
        Option.some.inj ((hofEntries es).symm.trans (ht ▸ hitem))
      exact (hminus es).mp hb
    · rintro ⟨⟨item, hitem⟩, hplus⟩
      obtain ⟨es, ht, rfl⟩ := (hcreated t item).mp hitem
      exact ⟨⟨_⟩, _, hitem, (hminus es).mpr (hplus es ht), rfl⟩
  · simp only [hskipping]
    constructor
    · rintro ⟨r, item, hitem, -⟩
      exact ⟨item, hitem⟩
    · rintro ⟨item, hitem⟩
      exact ⟨⟨item.a⟩, item, hitem, rfl⟩
  · rw [hstrict, hskipping]
    rintro (⟨item, hitem, -, ha⟩ | ⟨item, hitem, ha⟩)
    · exact ⟨item, hitem, ha⟩
    · exact ⟨item, hitem, ha⟩

end Biparse
