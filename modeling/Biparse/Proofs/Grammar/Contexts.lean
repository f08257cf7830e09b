import Biparse.Grammar.List
import Biparse.Proofs.Grammar.Consumers
import Biparse.Proofs.Grammar.Scopes
import Biparse.Proofs.Record.Locations

/-!
# Which span a component is told

The start of a construct is kept in one place that all constructs share, and still every component
is told the span of its own: from where its construct was started to where reading stands, whatever
was read or tried in between. In general this is what reading by scopes says
(`Biparse.Proofs.Grammar.Scopes`). Here it is put to use at a mapping and at a fold behind any head
(`Rule.parse_reduce_apply`, `Rule.parse_reduce_put`), and at whatever follows further on in the same
construct: that is told what it would be told if all before it were the head
(`Rule.parse_reduce_chain`).

So a record made at the end of a text is told the whole text, and a word is told where it stands
(`reductions_see_their_construct`).
-/

namespace Biparse

/-! ## Single nodes -/

section Nodes

variable {L M E R : Type}

/-- What a mapping makes of what has been read since `s`, when it is told the span of just that. -/
def Stream.mapped (s : Stream) (mapping : Mapping L R) : Option L × Stream → Option R × Stream
  | (none, _) => (none, s)
  | (some left, s') =>
    match mapping.forward ⟨s.pos, s'.pos⟩ left with
    | .error _ => (none, s)
    | .ok value => (some value, s')

/-- What a fold makes of what has been read since `s` and of an element that is read next, when it
is told the span of both. -/
def Stream.folded (s : Stream) (element : Rule E) (fold : Fold L E R) :
    Option L × Stream → Option R × Stream
  | (none, _) => (none, s)
  | (some left, s') =>
    match element.parse s' with
    | (none, _) => (none, s)
    | (some value, s'') => (some (fold.forward ⟨s.pos, s''.pos⟩ left value), s'')

theorem Rule.parse_reduce_apply (head : Rule L) (mapping : Mapping L R) (s : Stream) :
    (Rule.reduce head (.apply mapping)).parse s = s.mapped mapping (head.parse s) := by
  rw [Rule.parse_eq_readFrom, Rule.parse_eq_readFrom head, Rule.readFrom]
  cases head.readFrom s.place with
  | none => rfl
  | some out =>
      obtain ⟨left, p⟩ := out
      simp only [Option.bind_eq_bind, Option.bind_some, Reduction.readWithin, Stream.settle,
        Stream.mapped]
      rw [show (s.moveTo p).pos = p.pos from rfl, show s.place.pos = s.pos from rfl]
      cases mapping.forward ⟨s.pos, p.pos⟩ left <;> rfl

theorem Rule.parse_reduce_put (head : Rule L) (element : Rule E) (fold : Fold L E R) (s : Stream) :
    (Rule.reduce head (.put element fold)).parse s = s.folded element fold (head.parse s) := by
  rw [Rule.parse_eq_readFrom, Rule.parse_eq_readFrom head, Rule.readFrom]
  cases head.readFrom s.place with
  | none => rfl
  | some out =>
      obtain ⟨left, p⟩ := out
      simp only [Option.bind_eq_bind, Option.bind_some, Reduction.readWithin, Stream.settle,
        Stream.folded, Rule.parse_eq_readFrom element, Stream.place_moveTo]
      cases element.readFrom p <;> rfl

/-- A later reduction of a construct is told what it would be told if all before were the head. -/
theorem Rule.parse_reduce_chain (head : Rule L) (first : Reduction L M) (second : Reduction M R)
    (s : Stream) : (Rule.reduce head (.chain first second)).parse s
      = (Rule.reduce (.reduce head first) second).parse s := by
  rw [Rule.parse_eq_readFrom, Rule.parse_eq_readFrom]
  simp only [Rule.readFrom, Reduction.readWithin, Option.bind_eq_bind, Option.bind_assoc]

end Nodes

/-! ## Words behind a literal -/

theorem utf8Size_of_isWordLetter {c : Char} (h : isWordLetter c = true) : c.utf8Size = 1 := by
  obtain ⟨-, hz⟩ := isWordLetter_iff.mp h
  rw [Char.utf8Size_eq_one_iff]
  exact UInt32.le_trans hz (by decide)

theorem Word.byteCount_eq (w : Word) : byteCount w.val.toList = w.val.length := by
  have hletters : ∀ text : List Char, text.all isWordLetter = true →
      byteCount text = text.length := by
    intro text hall
    induction text with
    | nil => rfl
    | cons c rest ih =>
        rw [List.all_cons, Bool.and_eq_true] at hall
        rw [byteCount, ih hall.2, utf8Size_of_isWordLetter hall.1, List.length_cons, Nat.add_comm]
  rw [hletters _ (isWord_iff.mp w.property).2, String.length_toList]

theorem located_parse (literal : String) (w : Word) :
    (Grammar.located literal).parse? (literal ++ w.val)
      = some ⟨⟨⟨byteCount literal.toList, byteCount literal.toList + w.val.length⟩⟩, w.val⟩ := by
  rw [Grammar.parse?, Grammar.located, Rule.parseAll?_eq_some_iff]
  have heat : (Stream.ofText (literal ++ w.val)).eat? literal.toList
      = some ((Stream.ofText (literal ++ w.val)).advance literal.toList.length) :=
    Stream.eat?_eq_some_iff.mpr ⟨by simp [Stream.ofText], rfl⟩
  generalize hafter : (Stream.ofText (literal ++ w.val)).advance literal.toList.length = after
    at heat
  have hrest : after.rest = w.val.toList ++ [] := by
    rw [← hafter, Stream.rest_advance, Stream.ofText]
    simp
  have hpos : after.pos = byteCount literal.toList := by
    rw [← hafter]
    simp [Stream.advance, Stream.ofText]
  have hword : Rule.word.parse after = (some w.val, after.advance w.val.toList.length) := by
    rw [Rule.parse]
    exact readWord_append w hrest endsWord_nil
  have hend : (after.advance w.val.toList.length).pos
      = byteCount literal.toList + w.val.length := by
    rw [← w.byteCount_eq, ← hpos]
    simp [Stream.advance, hrest]
  refine ⟨after.advance w.val.toList.length, ?_, by simp [hrest]⟩
  rw [Rule.parse, heat]
  simp only [Rule.parse_reduce_apply, hword, Stream.mapped, Mapping.locate, hpos, hend]

variable [Payloads]

/-! ## Records at the end of a text -/

section Records

variable {R : Type} {shape : RecordShape R} {location : R → Span} {unknown : UnknownPolicy}
  {form : Grammar.EntryForm} {t : String} {r : R}

theorem location_recordRule (h : shape.Locates location) {keep : String → Bool}
    {builder : RecordBuilder R}
    (hbuilder : RecordBuilder.restricted shape ⟨true, unknown⟩ keep = .ok builder)
    {mapping : Mapping (PropertyMap Value) R} (hbuilds : mapping.forward = builder.mapping.forward)
    (hparse : (Grammar.recordRule form mapping).parseAll? t = some r) :
    location r = ⟨0, byteCount t.toList⟩ := by
  rw [Grammar.recordRule, parseAll?_reduce_apply, hbuilds, Option.bind_eq_some_iff] at hparse
  obtain ⟨m, -, hforward⟩ := hparse
  have hcontext : (⟨true, unknown⟩ : BuilderConfig).withContext = true := rfl
  exact RecordBuilder.location_forward h hcontext hbuilder (toOption_eq_some_iff.mp hforward)

end Records

namespace PlacedItem

variable {record : String}

def creator (record : String) : RecordCreator PlacedItem :=
  .ofListed (shape record) ["a", "b"] (fun context => .ok (blankAt context)) .reject

theorem new_eq_creator :
    RecordCreator.new (shape record) ["a", "b"] { withContext := true } = .ok (creator record) :=
  RecordCreator.new_eq_ok (lawful_shape Item.listsBoth).registered rfl

theorem creator_builder : (creator record).builder = builder record :=
  RecordCreator.builder_ofListed (fun _ hp => hp) _ _

/-- A text is read as a placed item exactly when it is read as the item, and the place is the whole
text. -/
theorem recordRule_parse_iff {swapped : Bool} {t : String} {r : PlacedItem} :
    (Grammar.recordRule { swapped := swapped } (builder record).mapping).parseAll? t = some r ↔
      (Grammar.itemGrammar swapped ["a", "b"]).parse? t = some r.item
        ∧ r.location.span = ⟨0, byteCount t.toList⟩ := by
  rw [Grammar.recordRule_parse_iff, Grammar.itemGrammar_parse_iff Item.listsBoth]
  simp only [forward_builder_iff, ← and_assoc, exists_and_right]
  refine and_congr_left fun _ => exists_congr fun es => and_congr_right fun _ => ?_
  constructor
  · intro hbound
    exact hbound.unique (Item.boundBy_ofList es)
  · intro hitem
    rw [hitem]
    exact Item.boundBy_ofList es

end PlacedItem

/-! ## All together -/

/-- Every component is told the span of its own construct. Reading with one shared mark is reading
by scopes, where a construct hands its start to its reductions and nothing inside can change it. So a
mapping or a fold at the end of a construct is told the span from where that was started to where
reading stands, and what follows in the construct goes by the same start. A record that keeps the
span it is made from has that of the whole text, and placed items are made of the same texts as
items; a word behind a literal is located where it stands. -/
theorem reductions_see_their_construct :
    (∀ {T : Type} (rule : Rule T) (s : Stream), rule.parse s = s.settle (rule.readFrom s.place))
    ∧ (∀ {L R : Type} (reduction : Reduction L R) (left : L) (s : Stream), s.mark ≤ s.pos →
      reduction.parse left s = s.settle (reduction.readWithin (Span.mk s.mark) left s.place))
    ∧ (∀ {L R : Type} (head : Rule L) (mapping : Mapping L R) (s : Stream),
      (Rule.reduce head (.apply mapping)).parse s = s.mapped mapping (head.parse s))
    ∧ (∀ {L E R : Type} (head : Rule L) (element : Rule E) (fold : Fold L E R) (s : Stream),
      (Rule.reduce head (.put element fold)).parse s = s.folded element fold (head.parse s))
    ∧ (∀ {L M R : Type} (head : Rule L) (first : Reduction L M) (second : Reduction M R)
      (s : Stream), (Rule.reduce head (.chain first second)).parse s
        = (Rule.reduce (.reduce head first) second).parse s)
    ∧ (∀ {R : Type} (shape : RecordShape R) (location : R → Span), shape.Locates location →
      ∀ (form : Grammar.EntryForm) (unknown : UnknownPolicy) (t : String) (r : R),
        (∀ builder, RecordBuilder.new shape ⟨true, unknown⟩ = .ok builder →
          (Grammar.ofBuilder form builder).parse? t = some r →
            location r = ⟨0, byteCount t.toList⟩)
        ∧ ∀ listed creator, RecordCreator.new shape listed ⟨true, unknown⟩ = .ok creator →
          (Grammar.ofCreator form creator).parse? t = some r →
            location r = ⟨0, byteCount t.toList⟩)
    ∧ (∀ (record : String) (swapped : Bool), ∃ plain builder creator,
      Grammar.items { swapped := swapped } ["a", "b"] {} = .ok plain
      ∧ RecordBuilder.new (PlacedItem.shape record) { withContext := true } = .ok builder
      ∧ RecordCreator.new (PlacedItem.shape record) ["a", "b"] { withContext := true } = .ok creator
      ∧ ∀ (t : String) (r : PlacedItem),
        ((Grammar.ofBuilder { swapped := swapped } builder).parse? t = some r ↔
          plain.parse? t = some r.item ∧ r.location.span = ⟨0, byteCount t.toList⟩)
        ∧ ((Grammar.ofCreator { swapped := swapped } creator).parse? t = some r ↔
          plain.parse? t = some r.item ∧ r.location.span = ⟨0, byteCount t.toList⟩))
    ∧ ∀ (literal : String) (w : Word), (Grammar.located literal).parse? (literal ++ w.val)
      = some ⟨⟨⟨byteCount literal.toList, byteCount literal.toList + w.val.length⟩⟩, w.val⟩ := by
  refine ⟨Rule.parse_eq_readFrom,
    fun reduction left s hbehind => reduction.parse_eq_readWithin left (Stream.tells_mk hbehind),
    Rule.parse_reduce_apply, Rule.parse_reduce_put, Rule.parse_reduce_chain,
    fun shape location hlocates form unknown t r => ⟨fun builder hbuilder hparse => ?_,
      fun listed creator hcreator hparse => ?_⟩, fun record swapped => ?_, located_parse⟩
  · exact location_recordRule hlocates hbuilder rfl hparse
  · have hbuilds : creator.mapping.forward = creator.builder.mapping.forward := rfl
    exact location_recordRule hlocates (RecordCreator.restricted_of_new hcreator) hbuilds hparse
  · refine ⟨.itemGrammar swapped ["a", "b"], PlacedItem.builder record,
      PlacedItem.creator record,
      Grammar.items_eq_ok Item.listsBoth, PlacedItem.new_eq_builder, PlacedItem.new_eq_creator,
      fun t r => ⟨PlacedItem.recordRule_parse_iff, ?_⟩⟩
    have hbuilds : (PlacedItem.creator record).mapping.forward
        = (PlacedItem.builder record).mapping.forward := by
      rw [← PlacedItem.creator_builder]
      rfl
    rw [Grammar.parse?, Grammar.ofCreator, Grammar.recordRule_parse_congr hbuilds]
    exact PlacedItem.recordRule_parse_iff

/-- A construct behind a literal starts behind it, and the construct around it at the literal. -/
example : (Rule.reduce (.prefixed "(" (.reduce .word (.apply (.locate String))))
    (.apply (.locate (Located String)))).parseAll? "(ab"
      = some ⟨⟨⟨0, 3⟩⟩, ⟨⟨⟨1, 3⟩⟩, "ab"⟩⟩ :=
  rfl

end Biparse
