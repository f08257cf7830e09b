import Biparse.Proofs.Grammar.Properties
import Biparse.Proofs.Record.Bijection

/-!
# Words, and records made of them

A word is read as itself, and with a plus sign behind it as a record that holds it. Nothing is read
behind the sign: three mappings make the record, and each takes back exactly what it makes
(`Mapping.Exact`). In a chain they still do (`Reduction.Silent.chain`).

When printing, an optional reduction takes its inner one wherever that goes through and does not
come back if the head then refuses. So it matters that no value can be printed in both ways. The
mappings take back values of the record's type only, and a text is not one (`promotedBy_exact`).
-/

namespace Biparse

/-! ## Mappings that take back what they make -/

/-- The two directions are the graph of one partial bijection, at whatever place. -/
def Mapping.Exact {L R : Type} (mapping : Mapping L R) : Prop :=
  ∀ context left v, mapping.forward context left = .ok v ↔ mapping.backward v = some left

theorem Value.erase_exact [Payloads] (t : Ty) : (Value.erase t).Exact := by
  intro context payload v
  rw [show (erase t).backward v = v.downcast? t from rfl, downcast?_eq_some_iff, eq_comm (a := v)]
  exact ⟨Except.ok.inj, congrArg _⟩

theorem PropertyMap.singleton_backward_eq_some_iff {V : Type} {key : String} {m : PropertyMap V}
    {value : V} : (singleton V key).backward m = some value ↔ m = empty.insert key value := by
  have hback : (singleton V key).backward m = some value ↔ m.size = 1 ∧ m.get? key = some value :=
    Option.ite_none_right_eq_some
  rw [hback]
  constructor
  · rintro ⟨hsize, hvalue⟩
    obtain ⟨entry, hentry⟩ := List.length_eq_one_iff.mp hsize
    refine eq_insert_of_keys hvalue fun other hother => ?_
    have hmem := mem_keys_iff.mpr ⟨value, hvalue⟩
    simp only [keys, hentry, List.map_cons, List.map_nil, List.mem_singleton] at hmem hother
    rw [hother, hmem]
  · rintro rfl
    exact ⟨rfl, by rw [get?_insert, if_pos rfl]⟩

theorem PropertyMap.singleton_exact (V : Type) (key : String) : (singleton V key).Exact := by
  intro context value m
  rw [singleton_backward_eq_some_iff, eq_comm (a := m)]
  exact ⟨Except.ok.inj, congrArg _⟩

namespace RecordCreator

variable [Payloads] {R : Type} {shape : RecordShape R} {p : String}

theorem decompose_ofListed_one (make : Span → Except String R) (unknown : UnknownPolicy)
    (record : R) :
    (ofListed shape [p] make unknown).decompose record
      = match shape.read? record p with
        | none => .empty
        | some value => PropertyMap.empty.insert p value := by
  rw [decompose_ofListed]
  cases hread : shape.read? record p <;> simp [PropertyMap.ofList, hread]

theorem decompose_eq_insert_iff {make : Span → Except String R} {unknown : UnknownPolicy}
    {record : R} {value : Value} :
    (ofListed shape [p] make unknown).decompose record = PropertyMap.empty.insert p value ↔
      shape.read? record p = some value := by
  constructor
  · intro h
    have hvalue := congrArg (PropertyMap.get? · p) h
    simpa [get?_decompose, PropertyMap.get?_insert] using hvalue
  · intro hread
    rw [decompose_ofListed_one, hread]

/-- A creator of records that are nothing but one property takes back exactly what it makes. -/
theorem mapping_exact (lawful : shape.Lawful [p]) {make : Span → Except String R}
    (starts : ∀ context, ∃ start, make context = .ok start ∧ shape.read? start p = none)
    (faithful : ∀ r r', shape.read? r p = shape.read? r' p → r = r') :
    (ofListed shape [p] make .reject).mapping.Exact := by
  intro context m record
  obtain ⟨start, hstart, hnone⟩ := starts context
  have hunset : ∀ q ∈ [p], shape.read? start q = none := List.forall_mem_singleton.mpr hnone
  rw [show (ofListed shape [p] make .reject).mapping.backward record
    = some ((ofListed shape [p] make .reject).decompose record) from rfl, Option.some.injEq]
  constructor
  · intro hforward
    have hread := read?_forward lawful hstart hunset hforward (List.mem_singleton_self p)
    have hkeys : ∀ key ∈ m.keys, key = p := by
      intro key hkey
      obtain ⟨value, hvalue⟩ := PropertyMap.mem_keys_iff.mp hkey
      have haccepts := (forward_isOk_iff lawful hstart m).mp ⟨record, hforward⟩ key value hvalue
      exact List.mem_singleton.mp haccepts.1
    rw [decompose_ofListed_one, hread]
    cases hvalue : m.get? p with
    | none => exact (PropertyMap.eq_empty_of_keys hvalue hkeys).symm
    | some value => exact (PropertyMap.eq_insert_of_keys hvalue hkeys).symm
  · rintro rfl
    obtain ⟨record', hforward, hread⟩ := forward_decompose lawful hstart hunset record
    obtain rfl := faithful record' record (hread p (List.mem_singleton_self p))
    exact hforward

end RecordCreator

/-! ## Reductions that read nothing -/

namespace Reduction

variable {L M R : Type}

/-- A reduction that neither reads nor writes, and takes back exactly what it makes. -/
structure Silent (reduction : Reduction L R) (unmake : R → Option L) : Prop where
  parse_iff : ∀ {left s v s'},
    reduction.parse left s = (some v, s') ↔ unmake v = some left ∧ s' = s
  print : ∀ bound v, reduction.print bound v = .ofOption ((unmake v).map (·, []))

namespace Silent

theorem apply {mapping : Mapping L R} (h : mapping.Exact) :
    (Reduction.apply mapping).Silent mapping.backward where
  parse_iff {left s v s'} := by
    rw [Reduction.parse, Prod.mk.injEq, toOption_eq_some_iff, h, eq_comm (a := s)]
  print bound v := by
    rw [Reduction.print]
    cases mapping.backward v <;> rfl

theorem chain {first : Reduction L M} {second : Reduction M R} {unmake : M → Option L}
    {unmake' : R → Option M} (hfirst : first.Silent unmake) (hsecond : second.Silent unmake') :
    (Reduction.chain first second).Silent fun v => (unmake' v).bind unmake where
  parse_iff {left s v s'} := by
    rw [Reduction.parse, Option.bind_eq_some_iff]
    constructor
    · intro h
      rcases hparse : first.parse left s with ⟨_ | middle, s₁⟩
      · simp [hparse] at h
      · obtain ⟨hmiddle, rfl⟩ := hfirst.parse_iff.mp hparse
        rcases hparse' : second.parse middle s₁ with ⟨_ | value, s₂⟩
        · simp [hparse, hparse'] at h
        · obtain ⟨hvalue, rfl⟩ := hsecond.parse_iff.mp hparse'
          obtain ⟨rfl, rfl⟩ : value = v ∧ s₂ = s' := by simpa [hparse, hparse'] using h
          exact ⟨⟨middle, hvalue, hmiddle⟩, rfl⟩
    · rintro ⟨⟨middle, hvalue, hmiddle⟩, rfl⟩
      simp only [hfirst.parse_iff.mpr ⟨hmiddle, rfl⟩, hsecond.parse_iff.mpr ⟨hvalue, rfl⟩]
  print bound v := by
    rw [Reduction.print, hsecond.print]
    cases unmake' v with
    | none => rfl
    | some middle =>
        simp only [Option.map_some, Printed.ofOption_some, Printed.done_bind, hfirst.print]
        cases hmiddle : unmake middle <;> simp [hmiddle]

variable {inner : Reduction L R} {unmake : R → Option L} {literal : String}

theorem prefixed_parse_iff (h : inner.Silent unmake) {left : L} {s s' : Stream} {v : R} :
    (Reduction.prefixed literal inner).parse left s = (some v, s') ↔
      unmake v = some left ∧ literal.toList <+: s.rest ∧ s' = s.advance literal.toList.length := by
  rw [Reduction.parse]
  constructor
  · intro hparse
    cases heat : s.eat? literal.toList with
    | none => simp [heat] at hparse
    | some after =>
        obtain ⟨hliteral, rfl⟩ := Stream.eat?_eq_some_iff.mp heat
        rcases hinner : inner.parse left (s.advance literal.toList.length) with ⟨_ | value, s₁⟩
        · simp [heat, hinner] at hparse
        · obtain ⟨hvalue, rfl⟩ := h.parse_iff.mp hinner
          obtain ⟨rfl, rfl⟩ : value = v ∧ _ = s' := by simpa [heat, hinner] using hparse
          exact ⟨hvalue, List.isPrefixOf_iff_prefix.mp hliteral, rfl⟩
  · rintro ⟨hvalue, hliteral, rfl⟩
    have heat := Stream.eat?_eq_some_iff.mpr ⟨List.isPrefixOf_iff_prefix.mpr hliteral, rfl⟩
    simp only [heat, h.parse_iff.mpr ⟨hvalue, rfl⟩]

end Silent

variable {inner : Reduction R R} {unmake : R → Option R} {literal : String}

/-- A literal at the end of a text has the value made; without it the value is as it was. -/
theorem Silent.readsToEnd_optional (h : inner.Silent unmake) (hliteral : literal ≠ "") :
    (Reduction.optional (.prefixed literal inner)).ReadsToEnd
      (fun marked : Bool => if marked then literal.toList else [])
      fun left marked v => if marked then unmake v = some left else left = v := by
  intro left s v
  have hrestores := Reduction.parse_restores (.prefixed literal inner) left s
  have hread (hvalue : unmake v = some left) (hrest : s.rest = literal.toList) :
      (Reduction.prefixed literal inner).parse left s
        = (some v, s.advance literal.toList.length) :=
    h.prefixed_parse_iff.mpr ⟨hvalue, ⟨[], by rw [hrest, List.append_nil]⟩, rfl⟩
  rw [Reduction.parse, Bool.exists_bool]
  simp only [Bool.false_eq_true, if_false, if_true]
  rcases hparse : (Reduction.prefixed literal inner).parse left s with ⟨_ | value, after⟩
  · rw [hparse] at hrestores
    obtain rfl : after = s := hrestores
    constructor
    · rintro ⟨s', heq, hend⟩
      obtain ⟨rfl, rfl⟩ : left = v ∧ after = s' := by simpa using heq
      exact .inl ⟨rfl, hend⟩
    · rintro (⟨rfl, hend⟩ | ⟨hvalue, hrest⟩)
      · exact ⟨after, rfl, hend⟩
      · cases hparse.symm.trans (hread hvalue hrest)
  · obtain ⟨hvalue, hprefix, rfl⟩ := h.prefixed_parse_iff.mp hparse
    constructor
    · rintro ⟨s', heq, hend⟩
      obtain ⟨rfl, rfl⟩ : value = v ∧ _ = s' := by simpa using heq
      obtain ⟨rest, hrest⟩ := hprefix
      rw [Stream.rest_advance, ← hrest, List.drop_left] at hend
      exact .inr ⟨hvalue, by rw [← hrest, hend, List.append_nil]⟩
    · rintro (⟨-, hend⟩ | ⟨hvalue', hrest⟩)
      · rw [hend, List.prefix_nil] at hprefix
        exact absurd (String.toList_eq_nil_iff.mp hprefix) hliteral
      · obtain ⟨heq, -⟩ := Prod.mk.inj (hparse.symm.trans (hread hvalue' hrest))
        exact ⟨_, by rw [heq], by rw [Stream.rest_advance, hrest, List.drop_length]⟩

theorem Silent.optional_print (h : inner.Silent unmake) (bound : Nat) (v : R) :
    (Reduction.optional (.prefixed literal inner)).print bound v
      = .done (((unmake v).map (·, literal.toList)).getD (v, [])) := by
  rw [Reduction.print, Reduction.print, h.print]
  cases unmake v <;> simp

end Reduction

/-! ## Promoted words -/

variable [Payloads]

namespace Grammar

section Promoted

variable {t : Ty} {creator : RecordCreator t.Carrier}

/-- The value that a promoted one was made of. -/
def demote? (creator : RecordCreator t.Carrier) (v : Value) : Option Value :=
  ((v.downcast? t).bind creator.mapping.backward).bind (PropertyMap.singleton Value "a").backward

theorem demote?_eq_some_iff {v left : Value} :
    demote? creator v = some left ↔
      ∃ r, v = .of t r ∧ creator.decompose r = PropertyMap.empty.insert "a" left := by
  simp only [demote?, Option.bind_eq_some_iff, PropertyMap.singleton_backward_eq_some_iff,
    Value.downcast?_eq_some_iff, RecordCreator.mapping, Option.some.injEq]
  constructor
  · rintro ⟨m, ⟨r, hv, rfl⟩, hm⟩
    exact ⟨r, hv, hm⟩
  · rintro ⟨r, hv, hm⟩
    exact ⟨_, ⟨r, hv, rfl⟩, hm⟩

/-- A text is no record, so a word has not been promoted. -/
theorem demote?_string (ht : t ≠ .string) (text : String) :
    demote? creator (.string text) = none := by
  refine Option.eq_none_iff_forall_ne_some.mpr fun left h => ?_
  obtain ⟨r, hr, -⟩ := demote?_eq_some_iff.mp h
  exact ht ((Value.ty_of t r).symm.trans (congrArg Value.ty hr.symm))

theorem silent_promotion (hcreator : creator.mapping.Exact) :
    (Reduction.chain (.apply (PropertyMap.singleton Value "a"))
      (.chain (.apply creator.mapping) (.apply (Value.erase t)))).Silent (demote? creator) :=
  (Reduction.Silent.apply (PropertyMap.singleton_exact Value "a")).chain
    ((Reduction.Silent.apply hcreator).chain (Reduction.Silent.apply (Value.erase_exact t)))

theorem promotedBy_parse_iff (hcreator : creator.mapping.Exact) {text : String} {v : Value} :
    (promotedBy t creator).parse? text = some v ↔
      ∃ w : Word, (text = w.val ∧ v = .string w.val)
        ∨ (text = w.val ++ "+" ∧ demote? creator v = some (.string w.val)) := by
  have hcloses : ∀ marked : Bool, EndsWord (if marked then "+".toList else []) := by
    intro marked
    cases marked with
    | false => exact endsWord_nil
    | true => exact endsWord_cons.mpr (by decide)
  have hparse := parseAll?_word_reduce textValue_readsWords
    ((silent_promotion hcreator).readsToEnd_optional (by decide)) hcloses (t := text) (v := v)
  refine hparse.trans (exists_congr fun w => ?_)
  simp only [Bool.exists_bool, Bool.false_eq_true, if_false, if_true, String.empty_append,
    List.append_nil, ← String.toList_append, String.toList_inj]
  rw [and_comm, eq_comm (a := v), and_comm (a := demote? creator v = _)]

/-- The text of a value: with the sign if it can be demoted, and then only so. -/
def promotedText? (creator : RecordCreator t.Carrier) (v : Value) : Option String :=
  match demote? creator v with
  | some left => left.word?.map fun w => w.val ++ "+"
  | none => v.word?.map fun w => w.val

theorem promotedBy_print (hcreator : creator.mapping.Exact) (bound : Nat) (v : Value) :
    (promotedBy t creator).rule.print bound v
      = .ofOption ((promotedText? creator v).map String.toList) := by
  rw [promotedBy, Rule.print, (silent_promotion hcreator).optional_print, promotedText?]
  cases demote? creator v with
  | none =>
      have hword := textValue_printsWords bound v
      simp only [Option.map_none, Option.getD_none, Printed.done_bind, hword]
      cases v.word? <;> simp
  | some left =>
      have hword := textValue_printsWords bound left
      simp only [Option.map_some, Option.getD_some, Printed.done_bind, hword]
      cases left.word? <;> simp

theorem promotedText?_eq_some_iff (ht : t ≠ .string) {text : String} {v : Value} :
    promotedText? creator v = some text ↔
      ∃ w : Word, (text = w.val ∧ v = .string w.val)
        ∨ (text = w.val ++ "+" ∧ demote? creator v = some (.string w.val)) := by
  unfold promotedText?
  cases hdemote : demote? creator v with
  | none =>
      simp only [Option.map_eq_some_iff, Value.word?_eq_some_iff]
      constructor
      · rintro ⟨w, hv, rfl⟩
        exact ⟨w, .inl ⟨rfl, hv⟩⟩
      · rintro ⟨w, ⟨rfl, hv⟩ | ⟨-, hnone⟩⟩
        · exact ⟨w, hv, rfl⟩
        · cases hnone
  | some left =>
      simp only [Option.map_eq_some_iff, Value.word?_eq_some_iff]
      constructor
      · rintro ⟨w, rfl, rfl⟩
        exact ⟨w, .inr ⟨rfl, rfl⟩⟩
      · rintro ⟨w, ⟨-, rfl⟩ | ⟨rfl, hleft⟩⟩
        · rw [demote?_string ht] at hdemote
          cases hdemote
        · exact ⟨w, Option.some.inj hleft, rfl⟩

/-- A value is printed with the sign or without it, and read back as it was. -/
theorem promotedBy_exact (hcreator : creator.mapping.Exact) (ht : t ≠ .string) :
    (promotedBy t creator).Exact fun text v => ∃ w : Word, (text = w.val ∧ v = .string w.val)
      ∨ (text = w.val ++ "+" ∧ demote? creator v = some (.string w.val)) :=
  exact_of (promotedText? creator) (fun _ _ => promotedBy_parse_iff hcreator)
    (promotedBy_print hcreator _) fun _ _ => promotedText?_eq_some_iff ht

end Promoted

end Grammar

/-! ## Words promoted to one-text records -/

namespace Tag

theorem independent_fields : OptionalField.Independent [field] where
  names_inj := by simp [OptionalField.NamesInjective]
  get_set := by simp [field]
  get_set_other := by simp

theorem lawful_shape : shape.Lawful ["a"] :=
  RecordShape.lawful_ofFields independent_fields Ty.tag.name ⟨none⟩ (by simp [field])

theorem read?_shape (r : Tag) : shape.read? r "a" = r.a.map .string := rfl

theorem mapping_exact :
    (RecordCreator.ofListed shape ["a"] (fun _ => .ok ⟨none⟩) .reject).mapping.Exact := by
  refine RecordCreator.mapping_exact lawful_shape (fun _ => ⟨⟨none⟩, rfl, rfl⟩) fun r r' hread => ?_
  rw [read?_shape, read?_shape] at hread
  exact congrArg Tag.mk (Option.map_injective (fun _ _ => Value.string_inj.mp) hread)

end Tag

/-- A word stands for a text and a word with a plus sign behind it for a record of that text. No
other texts are read, and no other values are printed. -/
theorem promoted_words_exact :
    ∃ g, Grammar.promotedTag = .ok g ∧ g.Exact fun text v => ∃ w : Word,
      (text = w.val ∧ v = .string w.val) ∨ (text = w.val ++ "+" ∧ v = .tag ⟨some w.val⟩) := by
  have hnew : RecordCreator.new Tag.shape ["a"] {}
      = .ok (.ofListed Tag.shape ["a"] (fun _ => .ok ⟨none⟩) .reject) :=
    RecordCreator.new_eq_ok Tag.lawful_shape.registered
      (RecordShape.constructor_foldl_withProperty _ false)
  have hdemote : ∀ (v : Value) (w : Word),
      Grammar.demote? (t := .tag) (.ofListed Tag.shape ["a"] (fun _ => .ok ⟨none⟩) .reject) v
        = some (.string w.val) ↔ v = .tag ⟨some w.val⟩ := by
    intro v w
    simp only [Grammar.demote?_eq_some_iff, RecordCreator.decompose_eq_insert_iff, Tag.read?_shape,
      Option.map_eq_some_iff]
    constructor
    · rintro ⟨r, rfl, text, htext, heq⟩
      obtain rfl := Value.string_inj.mp heq
      exact congrArg (Value.tag ⟨·⟩) htext
    · rintro rfl
      exact ⟨_, rfl, _, rfl, rfl⟩
  have hexact := Grammar.promotedBy_exact (t := .tag) Tag.mapping_exact nofun
  simp only [hdemote] at hexact
  exact ⟨_, by rw [Grammar.promotedTag, hnew]; rfl, hexact⟩

end Biparse
