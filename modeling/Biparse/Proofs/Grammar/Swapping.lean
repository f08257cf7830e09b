import Biparse.Proofs.Grammar.Items

/-!
# Swapped choices

Which alternative of a choice is tried first when printing has no part in reading
(`Rule.parse_mirrored`). In the grammar of items it has none in what is printed either, but for the
order: at every step of the join one of the two printers takes the entry that the other one takes
last, and what an entry takes from the map leaves the other binding as it is. So the same bindings
are taken, and each printer writes the entries in reverse order of the other
(`PropertyMap.printedEntries_reverse`). In which order the map binds them is not seen at all.
-/

namespace Biparse

/-! ## Reading -/

mutual

/-- The rule with all its choices swapped. -/
def Rule.mirrored {T : Type} : Rule T → Rule T
  | .word => .word
  | .initial initializer => .initial initializer
  | .prefixed literal inner => .prefixed literal inner.mirrored
  | .reduce head tail => .reduce head.mirrored tail.mirrored

/-- The reduction with all its choices swapped. -/
def Reduction.mirrored {L R : Type} : Reduction L R → Reduction L R
  | .apply mapping => .apply mapping
  | .put element fold => .put element.mirrored fold
  | .prefixed literal inner => .prefixed literal inner.mirrored
  | .chain first second => .chain first.mirrored second.mirrored
  | .choice swapped first second => .choice (!swapped) first.mirrored second.mirrored
  | .optional inner => .optional inner.mirrored
  | .join separator item => .join separator item.mirrored

end

mutual

/-- A rule reads the same however its choices are printed. -/
theorem Rule.parse_mirrored {T : Type} :
    ∀ (rule : Rule T) (s : Stream), rule.mirrored.parse s = rule.parse s
  | .word, s => by rw [Rule.mirrored]
  | .initial initializer, s => by rw [Rule.mirrored]
  | .prefixed literal inner, s => by
      simp only [Rule.mirrored, Rule.parse, Rule.parse_mirrored inner]
  | .reduce head tail, s => by
      simp only [Rule.mirrored, Rule.parse, Rule.parse_mirrored head,
        Reduction.parse_mirrored tail]

/-- A reduction reads the same however its choices are printed. -/
theorem Reduction.parse_mirrored {L R : Type} :
    ∀ (reduction : Reduction L R) (left : L) (s : Stream),
      reduction.mirrored.parse left s = reduction.parse left s
  | .apply mapping, left, s => by rw [Reduction.mirrored]
  | .put element fold, left, s => by
      simp only [Reduction.mirrored, Reduction.parse, Rule.parse_mirrored element]
  | .prefixed literal inner, left, s => by
      simp only [Reduction.mirrored, Reduction.parse, Reduction.parse_mirrored inner]
  | .chain first second, left, s => by
      simp only [Reduction.mirrored, Reduction.parse, Reduction.parse_mirrored first,
        Reduction.parse_mirrored second]
  | .choice swapped first second, left, s => by
      simp only [Reduction.mirrored, Reduction.parse, Reduction.parse_mirrored first,
        Reduction.parse_mirrored second]
  | .optional inner, left, s => by
      simp only [Reduction.mirrored, Reduction.parse, Reduction.parse_mirrored inner]
  | .join separator item, left, s => by
      simp only [Reduction.mirrored, Reduction.parse, Reduction.parse_mirrored item]

end

/-! ## Printing -/

theorem PropertyMap.printedEntries_reverse [Payloads] (swapped : Bool) (m : PropertyMap Value) :
    (m.printedEntries swapped).reverse = m.printedEntries (!swapped) := by
  have hreverse : ∀ entry : Option Entry, entry.toList.reverse = entry.toList := by
    intro entry
    cases entry <;> rfl
  rw [printedEntries, List.reverse_append, hreverse, hreverse]
  cases swapped <;> rfl

theorem Item.listsBoth_swapped : ListsBoth ["b", "a"] := by
  intro p
  rw [← listsBoth p]
  simp [or_comm]

namespace Grammar

section AnyPayloads

variable [Payloads]

section Items

variable {swapped : Bool} {listed : List String} {r : Item} {text : String}

theorem itemGrammar_parse?_not (swapped : Bool) (t : String) :
    (itemGrammar (!swapped) listed).parse? t = (itemGrammar swapped listed).parse? t := by
  have hrule : (itemGrammar (!swapped) listed).rule
      = (itemGrammar swapped listed).rule.mirrored := rfl
  rw [parse?, parse?, hrule, Rule.parseAll?, Rule.parseAll?, Rule.parse_mirrored]

theorem itemGrammar_print?_eq_some_iff (hlisted : Item.ListsBoth listed) :
    (itemGrammar swapped listed).print? r = some text ↔
      r.Printable ∧ r.written swapped = text := by
  rw [itemGrammar_print? hlisted, Option.ite_none_right_eq_some, Option.some.injEq]

theorem itemGrammar_isSome_print?_iff (hlisted : Item.ListsBoth listed) :
    ((itemGrammar swapped listed).print? r).isSome ↔ r.Printable := by
  rw [itemGrammar_print? hlisted, Option.isSome_ite]

theorem itemGrammar_parse?_printed (swapped : Bool) (hlisted : Item.ListsBoth listed)
    (hprint : (itemGrammar swapped listed).print? r = some text) :
    (itemGrammar (!swapped) listed).parse? text = some r := by
  obtain ⟨hwords, rfl⟩ := (itemGrammar_print?_eq_some_iff hlisted).mp hprint
  rw [itemGrammar_parse?_not, itemGrammar_parse_written hlisted hwords]

theorem itemGrammar_boundSuffices (hlisted : Item.ListsBoth listed) :
    (itemGrammar swapped listed).BoundSuffices := by
  intro r bound hle
  have hbound := Nat.lt_of_lt_of_le (two_lt_bound swapped hlisted r) hle
  rw [itemGrammar_print hlisted hbound, itemGrammar_print? hlisted]
  split <;> rfl

end Items

/-- Two grammars of items read alike, and print the items whose texts are words. What they print are
the same entries, in reverse order, and each reads what the other one has printed. -/
structure PrintsReversed (g g' : Grammar Item) : Prop where
  parse?_eq : ∀ t, g.parse? t = g'.parse? t
  printable : ∀ r, (g.print? r).isSome ↔ r.Printable
  isSome_print? : ∀ r, (g.print? r).isSome ↔ (g'.print? r).isSome
  entries : ∀ r text, g.print? r = some text → ∃ es : List Entry, es.map Entry.text = r.entryTexts
    ∧ text = ",".intercalate (es.map Entry.text)
    ∧ g'.print? r = some (",".intercalate (es.reverse.map Entry.text))
  readByOther : ∀ r text, g.print? r = some text → g'.parse? text = some r
  readFromOther : ∀ r text, g'.print? r = some text → g.parse? text = some r
  boundSuffices : g.BoundSuffices ∧ g'.BoundSuffices

theorem itemGrammar_printsReversed {listed : List String} (hlisted : Item.ListsBoth listed) :
    (itemGrammar true listed).PrintsReversed (itemGrammar false listed) where
  parse?_eq := itemGrammar_parse?_not false
  printable _ := itemGrammar_isSome_print?_iff hlisted
  isSome_print? _ :=
    (itemGrammar_isSome_print?_iff hlisted).trans (itemGrammar_isSome_print?_iff hlisted).symm
  entries r text hprint := by
    obtain ⟨hwords, rfl⟩ := (itemGrammar_print?_eq_some_iff hlisted).mp hprint
    have hsame := Item.boundBy_decompose hlisted r
    refine ⟨_, hsame.texts_printedEntries hwords true, hsame.written_eq hwords true, ?_⟩
    rw [itemGrammar_print? hlisted, if_pos hwords, hsame.written_eq hwords,
      PropertyMap.printedEntries_reverse]
    rfl
  readByOther _ _ := itemGrammar_parse?_printed true hlisted
  readFromOther _ _ := itemGrammar_parse?_printed false hlisted
  boundSuffices := ⟨itemGrammar_boundSuffices hlisted, itemGrammar_boundSuffices hlisted⟩

/-- With the choice between the two entries swapped, the grammar of items reads the same, prints the
same items, which are those whose texts are words, and writes their entries in reverse order: the
plus sign first where the choice is swapped, and the minus sign first where it is not. It does not
matter in which order the creator lists the properties. -/
theorem swapping_reverses_entries (listed : List String) (hlisted : Item.ListsBoth listed) :
    ∃ g g', items { swapped := true } listed {} = .ok g
      ∧ items { swapped := false } listed {} = .ok g' ∧ g.PrintsReversed g'
      ∧ ∀ listed', Item.ListsBoth listed' → ∃ h h',
        items { swapped := true } listed' {} = .ok h
          ∧ items { swapped := false } listed' {} = .ok h'
          ∧ (∀ r, h.print? r = g.print? r) ∧ ∀ r, h'.print? r = g'.print? r := by
  refine ⟨_, _, items_eq_ok hlisted, items_eq_ok hlisted, itemGrammar_printsReversed hlisted,
    fun listed' hlisted' => ⟨_, _, items_eq_ok hlisted', items_eq_ok hlisted', fun r => ?_,
      fun r => ?_⟩⟩
  · rw [itemGrammar_print? hlisted', itemGrammar_print? hlisted]
  · rw [itemGrammar_print? hlisted', itemGrammar_print? hlisted]

end AnyPayloads

open scoped Payloads in
/-- The properties listed in either order. -/
theorem swapping_reverses_entries_ab :
    ∃ g g', items { swapped := true } ["a", "b"] {} = .ok g
      ∧ items { swapped := false } ["a", "b"] {} = .ok g' ∧ g.PrintsReversed g'
      ∧ ∃ h h', items { swapped := true } ["b", "a"] {} = .ok h
          ∧ items { swapped := false } ["b", "a"] {} = .ok h'
          ∧ (∀ r, h.print? r = g.print? r) ∧ ∀ r, h'.print? r = g'.print? r := by
  obtain ⟨g, g', hg, hg', hreversed, hother⟩ :=
    swapping_reverses_entries ["a", "b"] Item.listsBoth
  exact ⟨g, g', hg, hg', hreversed, hother ["b", "a"] Item.listsBoth_swapped⟩

open scoped Payloads in
/-- The same item from the two grammars. -/
example :
    let r : Item := ⟨some "x", some "y"⟩
    ((itemGrammar true ["a", "b"]).print? r, (itemGrammar false ["a", "b"]).print? r)
      = (some "+x,-y", some "-y,+x") := by
  decide

end Grammar

end Biparse
