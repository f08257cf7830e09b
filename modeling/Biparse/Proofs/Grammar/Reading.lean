import Biparse.Proofs.Grammar.Backtracking
import Biparse.Proofs.Text.Joined

/-!
# What words, joins and whole texts read

A reader takes the longest word and the longest join it finds, so a text is accepted by what stands
behind each part as much as by the part itself. The lemmas here say what is read in terms of what is
written: a word stands at the front of the rest and ends there (`readWord_append`,
`readWord_written`), and the rounds of a join read a list of elements with the separator between
them (`readRounds_joined`, `readRounds_written`).

For the join all that is asked of its item is that it reads single elements as they are written
(`ReadsAs`); then it reads to the end of a text exactly where that is the elements of some list with
separators between them (`ReadsAs.readsToEnd_join`). A whole text is a start and what is read from
there to the end. The start is nothing (`parseAll?_initial_reduce`) or a word
(`parseAll?_word_reduce`).
-/

namespace Biparse

/-! ## Words -/

/-- One or more lowercase ASCII letters. -/
def IsWord (text : String) : Prop := text ≠ "" ∧ ∀ c ∈ text.toList, 'a' ≤ c ∧ c ≤ 'z'

/-- A text that is a word. -/
abbrev Word := { text : String // IsWord text }

/-- A text that goes on with no letter, so that a word in front of it ends there. -/
def EndsWord (tail : List Char) : Prop := ∀ c ∈ tail.head?, isWordLetter c = false

theorem isWordLetter_iff {c : Char} : isWordLetter c = true ↔ 'a' ≤ c ∧ c ≤ 'z' := by
  simp [isWordLetter]

theorem isWord_iff {text : String} :
    IsWord text ↔ text.toList ≠ [] ∧ text.toList.all isWordLetter = true := by
  simp [IsWord, isWordLetter_iff]

instance (text : String) : Decidable (IsWord text) := decidable_of_iff _ isWord_iff.symm

theorem endsWord_nil : EndsWord [] := by
  simp [EndsWord]

theorem endsWord_cons {c : Char} {rest : List Char} :
    EndsWord (c :: rest) ↔ isWordLetter c = false := by
  simp [EndsWord]

theorem takeWhile_append_of_endsWord {letters tail : List Char}
    (hall : letters.all isWordLetter = true) (htail : EndsWord tail) :
    (letters ++ tail).takeWhile isWordLetter = letters := by
  rw [List.takeWhile_append_of_pos (by simpa using hall)]
  cases tail with
  | nil => simp
  | cons c rest => simp [endsWord_cons.mp htail]

/-- A word that ends where it stops being written is read as it is. -/
theorem readWord_append {s : Stream} (w : Word) {tail : List Char}
    (hrest : s.rest = w.val.toList ++ tail) (htail : EndsWord tail) :
    readWord s = (some w.val, s.advance w.val.toList.length) := by
  obtain ⟨hne, hall⟩ := isWord_iff.mp w.property
  have hletters : s.rest.takeWhile isWordLetter = w.val.toList := by
    rw [hrest, takeWhile_append_of_endsWord hall htail]
  unfold readWord
  rw [hletters]
  cases hw : w.val.toList with
  | nil => exact absurd hw hne
  | cons c letters => simp only [← hw, String.ofList_toList]

/-- Whatever is read as a word is one, and stands at the front of the rest. -/
theorem readWord_written {s s' : Stream} {text : String} (h : readWord s = (some text, s')) :
    IsWord text ∧ text.toList <+: s.rest ∧ s' = s.advance text.toList.length := by
  unfold readWord at h
  have hprefix := List.takeWhile_prefix (l := s.rest) isWordLetter
  have hall : (s.rest.takeWhile isWordLetter).all isWordLetter = true := by
    simp
  cases hletters : s.rest.takeWhile isWordLetter with
  | nil => simp [hletters] at h
  | cons c letters =>
      rw [hletters] at h hprefix hall
      obtain ⟨rfl, rfl⟩ : String.ofList (c :: letters) = text ∧ _ = s' := by simpa using h
      rw [isWord_iff, String.toList_ofList]
      exact ⟨⟨List.cons_ne_nil c letters, hall⟩, hprefix, rfl⟩

/-! ## Rules that read words -/

/-- A rule that reads a word behind a literal and makes a value of it. -/
structure Rule.ReadsWords {T : Type} (rule : Rule T) (lead : String) (value : String → T) :
    Prop where
  read : ∀ {w : Word} {s : Stream} {tail : List Char}, s.rest = (lead ++ w.val).toList ++ tail →
    EndsWord tail → rule.parse s = (some (value w.val), s.advance (lead ++ w.val).toList.length)
  written : ∀ {v : T} {s s' : Stream}, rule.parse s = (some v, s') →
    ∃ w : Word, value w.val = v ∧ (lead ++ w.val).toList <+: s.rest
      ∧ s' = s.advance (lead ++ w.val).toList.length

namespace Rule.ReadsWords

variable {T R : Type} {rule : Rule T} {lead : String} {value : String → T}

theorem word : Rule.word.ReadsWords "" id where
  read {w s tail} hrest htail := by
    rw [String.empty_append] at hrest ⊢
    rw [Rule.parse]
    exact readWord_append w hrest htail
  written {v s s'} h := by
    rw [Rule.parse] at h
    obtain ⟨hisWord, hwritten⟩ := readWord_written h
    exact ⟨⟨v, hisWord⟩, rfl, by simpa using hwritten⟩

/-- A mapping that never fails makes another value of the word. -/
theorem reduce_apply (h : rule.ReadsWords lead value) {mapping : Mapping T R} {value' : String → R}
    (hforward : ∀ context text, mapping.forward context (value text) = .ok (value' text)) :
    (Rule.reduce rule (.apply mapping)).ReadsWords lead value' where
  read {w s tail} hrest htail := by
    have hrule := h.read (s := s.setMark s.pos) hrest htail
    simp only [Rule.parse, Reduction.parse, hrule, hforward, Except.toOption]
    rfl
  written {v s s'} hparse := by
    simp only [Rule.parse] at hparse
    rcases hrule : rule.parse (s.setMark s.pos) with ⟨_ | left, after⟩
    · simp [hrule] at hparse
    · obtain ⟨w, rfl, hprefix, rfl⟩ := h.written hrule
      simp only [hrule, Reduction.parse, hforward, Except.toOption, Prod.mk.injEq,
        Option.some.injEq] at hparse
      obtain ⟨rfl, rfl⟩ := hparse
      exact ⟨w, rfl, hprefix, rfl⟩

/-- One more literal in front. -/
theorem prefixed (h : rule.ReadsWords lead value) (literal : String) :
    (Rule.prefixed literal rule).ReadsWords (literal ++ lead) value where
  read {w s tail} hrest htail := by
    rw [String.append_assoc, String.toList_append, List.append_assoc] at hrest
    have heat : s.eat? literal.toList = some (s.advance literal.toList.length) :=
      Stream.eat?_eq_some_iff.mpr ⟨by simp [hrest], rfl⟩
    have hrule := h.read (w := w) (s := s.advance literal.toList.length) (by simp [hrest]) htail
    simp only [Rule.parse, heat, hrule, Stream.advance_advance, String.append_assoc,
      String.toList_append, List.length_append]
  written {v s s'} hparse := by
    simp only [Rule.parse] at hparse
    cases heat : s.eat? literal.toList with
    | none => simp [heat] at hparse
    | some after =>
        obtain ⟨hliteral, rfl⟩ := Stream.eat?_eq_some_iff.mp heat
        rw [heat] at hparse
        rcases hrule : rule.parse (s.advance literal.toList.length) with ⟨_ | value', s''⟩
        · simp [hrule] at hparse
        · obtain ⟨w, rfl, ⟨rest, hrest⟩, rfl⟩ := h.written hrule
          obtain ⟨tail, htail⟩ := List.isPrefixOf_iff_prefix.mp hliteral
          simp only [hrule, Prod.mk.injEq, Option.some.injEq] at hparse
          obtain ⟨rfl, rfl⟩ := hparse
          have hwhole : (literal ++ lead ++ w.val).toList
              = literal.toList ++ (lead ++ w.val).toList := by
            rw [String.append_assoc, String.toList_append (s := literal)]
          refine ⟨w, rfl, ⟨rest, ?_⟩, ?_⟩
          · rw [Stream.rest_advance, ← htail, List.drop_left] at hrest
            rw [hwhole, ← htail, ← hrest, List.append_assoc]
          · rw [hwhole, Stream.advance_advance, List.length_append]

section Put

variable {L E : Type} {element : Rule E} {lead : String} {value : String → E} {fold : Fold L E R}
  {next : L → Word → R}

/-- A word folded onto the value to its left. -/
theorem put_read (h : element.ReadsWords lead value)
    (hforward : ∀ context left (w : Word), fold.forward context left (value w.val) = next left w)
    {left : L} {w : Word} {s : Stream} {tail : List Char}
    (hrest : s.rest = (lead ++ w.val).toList ++ tail) (htail : EndsWord tail) :
    (Reduction.put element fold).parse left s
      = (some (next left w), s.advance (lead ++ w.val).toList.length) := by
  simp only [Reduction.parse, h.read hrest htail, hforward]

theorem put_written (h : element.ReadsWords lead value)
    (hforward : ∀ context left (w : Word), fold.forward context left (value w.val) = next left w)
    {left : L} {v : R} {s s' : Stream}
    (hparse : (Reduction.put element fold).parse left s = (some v, s')) :
    ∃ w : Word, next left w = v ∧ (lead ++ w.val).toList <+: s.rest
      ∧ s' = s.advance (lead ++ w.val).toList.length := by
  simp only [Reduction.parse] at hparse
  rcases helement : element.parse s with ⟨_ | part, s''⟩
  · simp [helement] at hparse
  · obtain ⟨w, rfl, hwritten⟩ := h.written helement
    simp only [helement, hforward, Prod.mk.injEq, Option.some.injEq] at hparse
    obtain ⟨hnext, rfl⟩ := hparse
    exact ⟨w, hnext, hwritten⟩

end Put

end Rule.ReadsWords

/-! ## Joins -/

section Join

variable {T E : Type} {item : T → Stream → Option T × Stream} {text : E → List Char}
  {step : T → E → Option T} {Closes : List Char → Prop}

/-- An item that reads single elements as they are written. The element `e` is written `text e` and
takes the value `v` to `step v e`, unless the item refuses it there. `Closes tail` is what the item
needs to see behind an element to know that it ends. -/
structure ReadsAs (item : T → Stream → Option T × Stream) (text : E → List Char)
    (step : T → E → Option T) (Closes : List Char → Prop) : Prop where
  text_ne_nil : ∀ e, text e ≠ []
  read : ∀ {v next : T} {e : E} {s : Stream} {tail : List Char}, step v e = some next →
    s.rest = text e ++ tail → Closes tail → item v s = (some next, s.advance (text e).length)
  written : ∀ {v next : T} {s s' : Stream}, item v s = (some next, s') →
    ∃ e, step v e = some next ∧ text e <+: s.rest ∧ s' = s.advance (text e).length

/-- Folding words onto a value reads the words one by one. -/
theorem Rule.ReadsWords.readsAs_put {element : Rule E} {lead : String} {value : String → E}
    (h : element.ReadsWords lead value) {fold : Fold T E T} {next : T → Word → T}
    (hforward : ∀ context v (w : Word), fold.forward context v (value w.val) = next v w) :
    ReadsAs (Reduction.put element fold).parse (fun w : Word => (lead ++ w.val).toList)
      (fun v w => some (next v w)) EndsWord where
  text_ne_nil w := by
    have hne := (isWord_iff.mp w.property).1
    simp [hne]
  read {v after w s tail} hstep hrest htail := by
    obtain rfl := Option.some.inj hstep
    exact h.put_read hforward hrest htail
  written {v after s s'} hparse := by
    obtain ⟨w, hnext, hwritten⟩ := h.put_written hforward hparse
    exact ⟨w, congrArg some hnext, hwritten⟩

theorem readSeparator_eq_some_iff {separator : List Char} {first : Bool} {s after : Stream} :
    readSeparator separator first s = some after ↔
      (if first then [] else separator) <+: s.rest
        ∧ s.advance (if first then [] else separator).length = after := by
  cases first with
  | true => simp [readSeparator]
  | false => simp [readSeparator, Stream.eat?_eq_some_iff, List.isPrefixOf_iff_prefix]

/-- What a join has read is what it has passed, whatever stopped it. -/
theorem readRounds_written (h : ReadsAs item text step Closes) (separator : List Char)
    (bound : Nat) (first : Bool) (v : T) (s : Stream) :
    ∃ es, es.foldlM step v = some (readRounds item separator bound first v s).1
      ∧ s.rest = joined separator text first es
        ++ (readRounds item separator bound first v s).2.rest := by
  induction bound generalizing first v s with
  | zero => exact ⟨[], rfl, by simp [readRounds]⟩
  | succ bound ih =>
      unfold readRounds
      cases hafter : readSeparator separator first s with
      | none => exact ⟨[], rfl, by simp⟩
      | some after =>
          obtain ⟨⟨tail, hlead⟩, rfl⟩ := readSeparator_eq_some_iff.mp hafter
          simp only
          generalize hround : item v _ = round
          obtain ⟨_ | next, s'⟩ := round
          · exact ⟨[], rfl, by simp [Stream.rewind]⟩
          · obtain ⟨e, hstep, ⟨rest, he⟩, hs'⟩ := h.written hround
            have hpassed : s.rest = (if first then [] else separator) ++ (text e ++ rest) := by
              rw [he, Stream.rest_advance, ← hlead]
              simp
            have hleft : s'.rest = rest := by rw [hs', Stream.rest_advance, ← he]; simp
            simp only
            split
            · refine ⟨[e], by simpa using hstep, ?_⟩
              rw [joined_cons, hpassed, hleft]
              simp
            · obtain ⟨es, hes, hrest⟩ := ih false next s'
              refine ⟨e :: es, by simpa [hstep] using hes, ?_⟩
              rw [joined_cons, hpassed, ← hleft, hrest]
              simp

/-- A list of elements is read to its end, one round for each. -/
theorem readRounds_joined (h : ReadsAs item text step Closes) (separator : List Char)
    (hcloses : ∀ es, Closes (joined separator text false es)) {bound : Nat} {first : Bool}
    {v next : T} {s : Stream} (es : List E) (hstep : es.foldlM step v = some next)
    (hrest : s.rest = joined separator text first es) (hbound : es.length < bound) :
    (readRounds item separator bound first v s).1 = next
      ∧ (readRounds item separator bound first v s).2.rest = [] := by
  induction es generalizing bound first v s with
  | nil =>
      obtain rfl : v = next := by simpa using hstep
      have hempty : s.rest = [] := by simpa using hrest
      obtain ⟨bound, rfl⟩ := Nat.exists_eq_add_of_lt hbound
      unfold readRounds
      cases hafter : readSeparator separator first s with
      | none => exact ⟨rfl, hempty⟩
      | some after =>
          -- the separator is empty then, and no element is: the item cannot go on
          obtain ⟨-, rfl⟩ := readSeparator_eq_some_iff.mp hafter
          simp only
          generalize hround : item v _ = round
          obtain ⟨_ | next, s'⟩ := round
          · exact ⟨rfl, hempty⟩
          · obtain ⟨e, -, he, -⟩ := h.written hround
            rw [Stream.rest_advance, hempty, List.drop_nil] at he
            exact absurd (List.prefix_nil.mp he) (h.text_ne_nil e)
  | cons e es ih =>
      obtain ⟨mid, hmid, hes⟩ : ∃ mid, step v e = some mid ∧ es.foldlM step mid = some next := by
        simpa [Option.bind_eq_some_iff] using hstep
      obtain ⟨bound, rfl⟩ := Nat.exists_eq_add_of_lt hbound
      rw [joined_cons] at hrest
      generalize hlead : (if first then [] else separator) = lead at hrest
      have hafter : readSeparator separator first s = some (s.advance lead.length) := by
        rw [readSeparator_eq_some_iff, hlead]
        exact ⟨⟨_, hrest.symm⟩, rfl⟩
      have hleft : (s.advance lead.length).rest = text e ++ joined separator text false es := by
        simp [hrest]
      have hitem := h.read hmid hleft (hcloses es)
      have hmoved : ((s.advance lead.length).advance (text e).length).pos ≠ s.pos := by
        have hless := Stream.pos_lt_advance (s := s.advance lead.length) (n := (text e).length)
          (by rw [hleft]; simp [h.text_ne_nil e])
        have hle := s.pos_le_advance lead.length
        omega
      unfold readRounds
      simp only [hafter, hitem, if_neg hmoved]
      refine ih hes ?_ ?_
      · simp [hrest]
      · simp only [List.length_cons]
        omega

/-- Elements are not empty, so there are no more of them than bytes. -/
theorem length_le_byteCount_joined (h : ReadsAs item text step Closes) (separator : List Char)
    (first : Bool) (es : List E) : es.length ≤ byteCount (joined separator text first es) := by
  induction es generalizing first with
  | nil => simp
  | cons e es ih =>
      have hpos := byteCount_pos (h.text_ne_nil e)
      have hrest := ih false
      simp only [joined_cons, byteCount_append, List.length_cons]
      omega

/-- What a join reads to the end of the text is a list of elements. -/
theorem readRounds_whole_iff (h : ReadsAs item text step Closes) (separator : List Char)
    (hcloses : ∀ es, Closes (joined separator text false es)) {v next : T} {s : Stream} :
    ((readRounds item separator (byteCount s.rest + 1) true v s).1 = next
        ∧ (readRounds item separator (byteCount s.rest + 1) true v s).2.rest = []) ↔
      ∃ es, es.foldlM step v = some next ∧ s.rest = joined separator text true es := by
  constructor
  · rintro ⟨rfl, hend⟩
    obtain ⟨es, hes, hread⟩ := readRounds_written h separator (byteCount s.rest + 1) true v s
    rw [hend, List.append_nil] at hread
    exact ⟨es, hes, hread⟩
  · rintro ⟨es, hes, hread⟩
    have hfew : es.length ≤ byteCount s.rest := by
      rw [hread]
      exact length_le_byteCount_joined h separator true es
    exact readRounds_joined h separator hcloses es hes hread (Nat.lt_succ_of_le hfew)

end Join

/-! ## Whole texts -/

/-- A reduction that reads to the end of the text exactly where that is what is left: the rest
`text e`, which takes the value to its left to one it may become by `e`. -/
def Reduction.ReadsToEnd {L R E : Type} (reduction : Reduction L R) (text : E → List Char)
    (Becomes : L → E → R → Prop) : Prop :=
  ∀ {left : L} {s : Stream} {v : R},
    (∃ s', reduction.parse left s = (some v, s') ∧ s'.rest = []) ↔
      ∃ e, Becomes left e v ∧ s.rest = text e

theorem ReadsAs.readsToEnd_join {T E : Type} {item : Reduction T T} {text : E → List Char}
    {step : T → E → Option T} {Closes : List Char → Prop} (h : ReadsAs item.parse text step Closes)
    {separator : String} (hcloses : ∀ es, Closes (joined separator.toList text false es)) :
    (Reduction.join separator item).ReadsToEnd (joined separator.toList text true)
      (fun left es v => es.foldlM step left = some v) := by
  intro left s v
  rw [← readRounds_whole_iff h separator.toList hcloses]
  simp only [Reduction.parse, Prod.mk.injEq, Option.some.injEq]
  constructor
  · rintro ⟨s', ⟨hv, rfl⟩, hend⟩
    exact ⟨hv, hend⟩
  · rintro ⟨hv, hend⟩
    exact ⟨_, ⟨hv, rfl⟩, hend⟩

/-- A word at the end of a text, folded onto the value to its left. -/
theorem Rule.ReadsWords.readsToEnd_put {L R E : Type} {element : Rule E} {lead : String}
    {value : String → E} (h : element.ReadsWords lead value) {fold : Fold L E R}
    {next : L → Word → R}
    (hforward : ∀ context left (w : Word), fold.forward context left (value w.val) = next left w) :
    (Reduction.put element fold).ReadsToEnd (fun w : Word => (lead ++ w.val).toList)
      (fun left w v => next left w = v) := by
  intro left s v
  constructor
  · rintro ⟨s', hparse, hend⟩
    obtain ⟨w, hnext, ⟨tail, hrest⟩, rfl⟩ := h.put_written hforward hparse
    rw [Stream.rest_advance, ← hrest, List.drop_left] at hend
    exact ⟨w, hnext, by rw [← hrest, hend, List.append_nil]⟩
  · rintro ⟨w, rfl, hrest⟩
    have hread : (Reduction.put element fold).parse left s
        = (some (next left w), s.advance (lead ++ w.val).toList.length) :=
      h.put_read hforward (by rw [hrest, List.append_nil]) endsWord_nil
    exact ⟨_, hread, by rw [Stream.rest_advance, hrest, List.drop_length]⟩

theorem Rule.parseAll?_eq_some_iff {T : Type} {rule : Rule T} {t : String} {v : T} :
    rule.parseAll? t = some v ↔
      ∃ s', rule.parse (.ofText t) = (some v, s') ∧ s'.rest = [] := by
  unfold Rule.parseAll?
  rcases rule.parse (.ofText t) with ⟨_ | value, s'⟩
  · simp
  · grind

/-- A mapping behind a rule sees the span of the whole text, and fails the text if it fails. -/
theorem parseAll?_reduce_apply {L R : Type} (head : Rule L) (mapping : Mapping L R) (t : String) :
    (Rule.reduce head (.apply mapping)).parseAll? t
      = (head.parseAll? t).bind fun left =>
          (mapping.forward ⟨0, byteCount t.toList⟩ left).toOption := by
  have hrestores := Rule.parse_restores head (.ofText t)
  unfold Rule.parseAll?
  rw [Rule.parse, show (Stream.ofText t).setMark (Stream.ofText t).pos = .ofText t from rfl]
  rcases hhead : head.parse (.ofText t) with ⟨_ | left, s'⟩
  · rfl
  · rw [hhead] at hrestores
    have hs' := (Stream.inside_ofText t).of_ahead hrestores
    have hspan (hend : s'.rest = []) :
        (s'.setMark (Stream.ofText t).pos).span = ⟨0, byteCount t.toList⟩ := by
      have hlength := hs'.pos_add_byteCount
      rw [hend] at hlength
      simp only [Stream.span, Stream.setMark, Stream.ofText, Nat.zero_min, Span.mk.injEq, true_and]
      exact hlength
    simp only [Reduction.parse]
    cases hend : s'.rest with
    | nil =>
        rw [hspan hend]
        cases hforward : (mapping.forward ⟨0, byteCount t.toList⟩ left).toOption with
        | none => simp [hforward]
        | some value => simp [Stream.setMark, hend, hforward]
    | cons c rest =>
        -- not the whole text is read, whether or not the mapping goes through
        cases (mapping.forward (s'.setMark (Stream.ofText t).pos).span left).toOption with
        | none => simp
        | some value => simp [Stream.setMark, hend]

theorem parseAll?_reduce {L R : Type} {head : Rule L} {tail : Reduction L R} {t : String} {v : R} :
    (Rule.reduce head tail).parseAll? t = some v ↔
      ∃ left s', head.parse (.ofText t) = (some left, s')
        ∧ ∃ s'', tail.parse left (s'.setMark 0) = (some v, s'') ∧ s''.rest = [] := by
  rw [Rule.parseAll?_eq_some_iff, Rule.parse,
    show (Stream.ofText t).setMark (Stream.ofText t).pos = .ofText t from rfl]
  rcases head.parse (.ofText t) with ⟨_ | left, s'⟩
  · simp
  · simp only [Prod.mk.injEq, Option.some.injEq]
    rw [show (Stream.ofText t).pos = 0 from rfl]
    constructor
    · rintro ⟨after, hparse, hend⟩
      refine ⟨left, s', ⟨rfl, rfl⟩, ?_⟩
      rcases htail : tail.parse left (s'.setMark 0) with ⟨_ | value, s''⟩
      · simp [htail] at hparse
      · rw [htail] at hparse
        obtain ⟨rfl, rfl⟩ : value = v ∧ s''.setMark _ = after := by simpa using hparse
        exact ⟨s'', rfl, hend⟩
    · rintro ⟨_, _, ⟨rfl, rfl⟩, s'', htail, hend⟩
      rw [htail]
      exact ⟨_, rfl, hend⟩

/-- A text that starts from nothing. -/
theorem parseAll?_initial_reduce {L R E : Type} {tail : Reduction L R} {text : E → List Char}
    {Becomes : L → E → R → Prop} (htail : tail.ReadsToEnd text Becomes)
    (initializer : Initializer L) {t : String} {v : R} :
    (Rule.reduce (.initial initializer) tail).parseAll? t = some v ↔
      ∃ e, Becomes (initializer.supply (.empty 0)) e v ∧ t.toList = text e := by
  have hinitial : (Rule.initial initializer).parse (.ofText t)
      = (some (initializer.supply (.empty 0)), .ofText t) := by
    rw [Rule.parse]
    rfl
  rw [parseAll?_reduce, hinitial]
  constructor
  · rintro ⟨left, s', heq, hend⟩
    obtain ⟨hleft, rfl⟩ := Prod.mk.inj heq
    obtain rfl := Option.some.inj hleft
    exact htail.mp hend
  · intro h
    exact ⟨_, _, rfl, htail.mpr h⟩

/-- A text that starts with a word: the word ends where the rest of the text begins. -/
theorem parseAll?_word_reduce {L R E : Type} {head : Rule L} {lead : String} {value : String → L}
    (hhead : head.ReadsWords lead value) {tail : Reduction L R} {text : E → List Char}
    {Becomes : L → E → R → Prop} (htail : tail.ReadsToEnd text Becomes)
    (hcloses : ∀ e, EndsWord (text e)) {t : String} {v : R} :
    (Rule.reduce head tail).parseAll? t = some v ↔
      ∃ (w : Word) (e : E), Becomes (value w.val) e v
        ∧ t.toList = (lead ++ w.val).toList ++ text e := by
  rw [parseAll?_reduce]
  constructor
  · rintro ⟨left, s', hparse, hend⟩
    obtain ⟨w, rfl, ⟨rest, hrest⟩, rfl⟩ := hhead.written hparse
    obtain ⟨e, hbecomes, hleft⟩ := htail.mp hend
    refine ⟨w, e, hbecomes, ?_⟩
    have hdrop : ((lead ++ w.val).toList ++ rest).drop (lead ++ w.val).toList.length = text e := by
      rw [hrest]
      exact hleft
    rw [List.drop_left] at hdrop
    rw [← hdrop]
    exact hrest.symm
  · rintro ⟨w, e, hbecomes, ht⟩
    refine ⟨_, _, hhead.read (s := .ofText t) ht (hcloses e), htail.mpr ⟨e, hbecomes, ?_⟩⟩
    rw [show ((Stream.ofText t).advance (lead ++ w.val).toList.length |>.setMark 0).rest
      = t.toList.drop (lead ++ w.val).toList.length from rfl, ht, List.drop_left]

/-- A join that starts a text off: the text is the elements of a list, and the value what they come
to one after another. -/
theorem parseAll?_join {T E : Type} {item : Reduction T T} {text : E → List Char}
    {step : T → E → Option T} {Closes : List Char → Prop} (h : ReadsAs item.parse text step Closes)
    {separator : String} (hcloses : ∀ es, Closes (joined separator.toList text false es))
    (initializer : Initializer T) {t : String} {v : T} :
    (Rule.reduce (.initial initializer) (.join separator item)).parseAll? t = some v ↔
      ∃ es : List E, es.foldlM step (initializer.supply (.empty 0)) = some v
        ∧ t.toList = separator.toList.intercalate (es.map text) :=
  parseAll?_initial_reduce (h.readsToEnd_join hcloses) initializer

end Biparse
