import Biparse.Grammar.Print
import Biparse.Proofs.Grammar.Reading

/-!
# What printing comes to

Printing looks at no more items of a join than a bound allows. The bound is not part of the answer:
an attempt that has finished comes to the same under every larger bound (`Rule.print_of_le`), so
what is printed under some bound is what printing comes to.

What a join undoes is described without the bound (`Undone`): the texts of the items and the value
that is left, which undoes no further. Under a bound above the number of these texts printing finds
exactly them (`undoItems_eq_of_undone`).

A grammar is `Exact` when reading and printing are inverse to each other.
-/

namespace Biparse

/-! ## Larger bounds -/

/-- `q` is `p`, unless `p` has met its bound. -/
def Printed.FinishedBy {α : Type} (p q : Printed α) : Prop := p = .unfinished ∨ q = p

namespace Printed.FinishedBy

variable {α β : Type} {p q : Printed α}

theorem refl (p : Printed α) : p.FinishedBy p := .inr rfl

theorem bind {f g : α → Printed β} (h : p.FinishedBy q) (hf : ∀ a, (f a).FinishedBy (g a)) :
    (p >>= f).FinishedBy (q >>= g) := by
  rcases h with rfl | rfl
  · exact .inl rfl
  · cases q with
    | done result => exact hf result
    | refused => exact .inr rfl
    | unfinished => exact .inl rfl

theorem orElse {p' q' : Printed α} (h : p.FinishedBy q) (h' : p'.FinishedBy q') :
    (p.orElse fun _ => p').FinishedBy (q.orElse fun _ => q') := by
  rcases h with rfl | rfl
  · exact .inl rfl
  · cases q with
    | done result => exact .inr rfl
    | refused => exact h'
    | unfinished => exact .inl rfl

end Printed.FinishedBy

theorem undoItems_finishedBy {T : Type} {undo undo' : T → Printed (T × List Char)}
    (hundo : ∀ value, (undo value).FinishedBy (undo' value)) {n m : Nat} (hle : n ≤ m) (value : T)
    (texts : List (List Char)) :
    (undoItems undo n value texts).FinishedBy (undoItems undo' m value texts) := by
  induction n generalizing m value texts with
  | zero => exact .inl rfl
  | succ n ih =>
      obtain ⟨m, rfl⟩ : ∃ k, m = k + 1 := ⟨m - 1, by omega⟩
      unfold undoItems
      rcases hundo value with heq | heq
      · rw [heq]
        exact .inl rfl
      · rw [heq]
        cases undo value with
        | done result => exact ih (by omega) result.1 (result.2 :: texts)
        | refused => exact .refl _
        | unfinished => exact .inl rfl

mutual

theorem Rule.print_finishedBy {n m : Nat} (hle : n ≤ m) {T : Type} :
    ∀ (rule : Rule T) (value : T), (rule.print n value).FinishedBy (rule.print m value)
  | .word, value => by
      rw [Rule.print, Rule.print]
      exact .refl _
  | .initial initializer, value => by
      rw [Rule.print, Rule.print]
      exact .refl _
  | .prefixed literal inner, value => by
      rw [Rule.print, Rule.print]
      exact (Rule.print_finishedBy hle inner value).bind fun _ => .refl _
  | .reduce head tail, value => by
      rw [Rule.print, Rule.print]
      exact (Reduction.print_finishedBy hle tail value).bind fun ⟨left, _⟩ =>
        (Rule.print_finishedBy hle head left).bind fun _ => .refl _

theorem Reduction.print_finishedBy {n m : Nat} (hle : n ≤ m) {L R : Type} :
    ∀ (reduction : Reduction L R) (value : R),
      (reduction.print n value).FinishedBy (reduction.print m value)
  | .apply mapping, value => by
      rw [Reduction.print, Reduction.print]
      exact .refl _
  | .put element fold, value => by
      rw [Reduction.print, Reduction.print]
      exact (Printed.FinishedBy.refl _).bind fun part => (Printed.FinishedBy.refl _).bind fun _ =>
        (Rule.print_finishedBy hle element part).bind fun _ => .refl _
  | .prefixed literal inner, value => by
      rw [Reduction.print, Reduction.print]
      exact (Reduction.print_finishedBy hle inner value).bind fun _ => .refl _
  | .chain first second, value => by
      rw [Reduction.print, Reduction.print]
      exact (Reduction.print_finishedBy hle second value).bind fun ⟨middle, _⟩ =>
        (Reduction.print_finishedBy hle first middle).bind fun _ => .refl _
  | .choice swapped first second, value => by
      rw [Reduction.print, Reduction.print]
      have hfirst := Reduction.print_finishedBy hle first value
      have hsecond := Reduction.print_finishedBy hle second value
      cases swapped with
      | false => exact hfirst.orElse hsecond
      | true => exact hsecond.orElse hfirst
  | .optional inner, value => by
      rw [Reduction.print, Reduction.print]
      exact (Reduction.print_finishedBy hle inner value).orElse (.refl _)
  | .join separator item, value => by
      rw [Reduction.print, Reduction.print]
      exact (undoItems_finishedBy (Reduction.print_finishedBy hle item) hle value []).bind
        fun _ => .refl _

end

/-- What a rule has printed under a bound it prints under every larger one. -/
theorem Rule.print_of_le {n m : Nat} (hle : n ≤ m) {T : Type} {rule : Rule T} {value : T}
    (hfinished : rule.print n value ≠ .unfinished) : rule.print m value = rule.print n value :=
  (Rule.print_finishedBy hle rule value).resolve_left hfinished

/-- The bound of a grammar is no part of its answers: printing comes to an end under it, and to the
same under every larger one. -/
def Grammar.BoundSuffices {T : Type} (g : Grammar T) : Prop :=
  ∀ value bound, g.bound value ≤ bound →
    g.rule.print bound value = .ofOption ((g.print? value).map String.toList)

/-- Reading and printing are inverse to each other: a text is read as a value, and the value printed
as the text, exactly when the text means the value. -/
structure Grammar.Exact {T : Type} (g : Grammar T) (Means : String → T → Prop) : Prop where
  parse_iff : ∀ t v, g.parse? t = some v ↔ Means t v
  print_iff : ∀ t v, g.print? v = some t ↔ Means t v
  boundSuffices : g.BoundSuffices

/-- For printing it is enough to look at one bound. -/
theorem Grammar.exact_of {T : Type} {g : Grammar T} {Means : String → T → Prop}
    (text? : T → Option String) (hparse : ∀ t v, g.parse? t = some v ↔ Means t v)
    (hprint : ∀ v, g.rule.print (g.bound v) v = .ofOption ((text? v).map String.toList))
    (htext : ∀ t v, text? v = some t ↔ Means t v) : g.Exact Means := by
  have hprint? : ∀ v, g.print? v = text? v := by
    intro v
    rw [Grammar.print?, hprint]
    cases text? v with
    | none => rfl
    | some text => exact congrArg some String.ofList_toList
  refine ⟨hparse, fun t v => by rw [hprint?, htext], fun v bound hle => ?_⟩
  have hfinished : g.rule.print (g.bound v) v ≠ .unfinished := by
    rw [hprint]
    cases text? v <;> simp
  rw [Rule.print_of_le hle hfinished, hprint, hprint?]

/-- A grammar that writes each value it takes in one way. -/
theorem Grammar.exact_of_ite {T : Type} {g : Grammar T} {P : T → Prop} [DecidablePred P]
    {text : T → String} (hparse : ∀ t v, g.parse? t = some v ↔ P v ∧ t = text v)
    (hprint : ∀ v, g.rule.print (g.bound v) v
      = if P v then .done (text v).toList else .refused) :
    g.Exact fun t v => P v ∧ t = text v := by
  refine exact_of (fun v => if P v then some (text v) else none) hparse
    (fun v => ?_) fun t v => ?_
  · rw [hprint]
    split <;> rfl
  · rw [Option.ite_none_right_eq_some, Option.some.injEq, eq_comm (a := text v)]

/-! ## Joins -/

/-- Undoing items until one is refused takes `value` to `left`, and the items stand for `texts`. -/
inductive Undone {T : Type} (undo : T → Printed (T × List Char)) : T → List (List Char) → T → Prop
  | refused {left : T} (hundo : undo left = .refused) : Undone undo left [] left
  | item {value previous left : T} {text : List Char} {texts : List (List Char)}
    (hundo : undo value = .done (previous, text)) (before : Undone undo previous texts left) :
    Undone undo value (texts ++ [text]) left

theorem undoItems_eq_of_undone {T : Type} {undo : T → Printed (T × List Char)} {value left : T}
    {texts : List (List Char)} (h : Undone undo value texts left) {bound : Nat}
    (hbound : texts.length < bound) (after : List (List Char)) :
    undoItems undo bound value after = .done (left, texts ++ after) := by
  induction h generalizing bound after with
  | refused hundo =>
      obtain ⟨bound, rfl⟩ := Nat.exists_eq_add_of_lt hbound
      simp [undoItems, hundo]
  | item hundo before ih =>
      rw [List.length_append, List.length_singleton] at hbound
      obtain ⟨bound, rfl⟩ : ∃ n, bound = n + 1 := ⟨bound - 1, by omega⟩
      simp only [undoItems, hundo]
      rw [ih (by omega)]
      simp

/-! ## Words -/

theorem printWord_eq (text : String) :
    printWord text = if IsWord text then .done text.toList else .refused := by
  unfold printWord
  by_cases h : IsWord text
  · obtain ⟨hne, hall⟩ := isWord_iff.mp h
    rw [if_pos h, if_pos (by simp [hne, hall])]
  · rw [if_neg h]
    rw [isWord_iff] at h
    rw [if_neg (by simpa [and_comm] using h)]

/-- The word that a text is. -/
def Word.ofText? (text : String) : Option Word := if h : IsWord text then some ⟨text, h⟩ else none

theorem Word.ofText?_eq_some_iff {text : String} {w : Word} :
    ofText? text = some w ↔ text = w.val := by
  unfold ofText?
  constructor
  · intro h
    split at h
    · rw [← Option.some.inj h]
    · cases h
  · rintro rfl
    rw [dif_pos w.property]

/-- A rule that prints a value as the word it is made of, behind a literal, and refuses a value that
is made of none. -/
def Rule.PrintsWords {T : Type} (rule : Rule T) (lead : String) (word? : T → Option Word) : Prop :=
  ∀ bound v, rule.print bound v = .ofOption ((word? v).map fun w => (lead ++ w.val).toList)

namespace Rule.PrintsWords

variable {T R : Type} {rule : Rule T} {lead : String} {word? : T → Option Word}

theorem word : Rule.word.PrintsWords "" Word.ofText? := by
  intro bound text
  rw [Rule.print, printWord_eq, Word.ofText?]
  by_cases h : IsWord text <;> simp [h]

theorem reduce_apply (h : rule.PrintsWords lead word?) (mapping : Mapping T R) :
    (Rule.reduce rule (.apply mapping)).PrintsWords lead
      (fun v => (mapping.backward v).bind word?) := by
  intro bound v
  simp only [Rule.print, Reduction.print]
  cases mapping.backward v with
  | none => rfl
  | some left => simp [h bound left]

theorem prefixed (h : rule.PrintsWords lead word?) (literal : String) :
    (Rule.prefixed literal rule).PrintsWords (literal ++ lead) word? := by
  intro bound v
  rw [Rule.print, h bound v]
  cases word? v <;> simp

theorem put_print (h : rule.PrintsWords lead word?) {L : Type} (fold : Fold L T R) (bound : Nat)
    (v : R) :
    (Reduction.put rule fold).print bound v
      = .ofOption ((fold.rightInverse v).bind fun part => (fold.leftInverse v).bind fun left =>
          (word? part).map fun w => (left, (lead ++ w.val).toList)) := by
  rw [Reduction.print]
  cases fold.rightInverse v with
  | none => rfl
  | some part =>
      cases fold.leftInverse v with
      | none => rfl
      | some left =>
          simp only [Printed.ofOption_some, Printed.done_bind, h bound part, Option.bind_some]
          cases word? part <;> rfl

end Rule.PrintsWords

end Biparse
