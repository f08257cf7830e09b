import Biparse.Grammar.List
import Biparse.Proofs.Grammar.Printing

/-!
# Two words, read and printed

A fold is given its two parts in the order they are read in and keeps them as it likes. What reading
and printing need of it is that the inverses give back just these parts (`Fold.Exact`). Then a text
of two words stands for what the fold makes of them, and every value it can take apart into words is
printed as such a text, whichever part the value holds first (`Grammar.twoWords_exact`).
-/

namespace Biparse

/-! ## Folds that give back their parts -/

/-- The value is `combine` of the two parts, at whatever place, and the inverses give back exactly
these parts. -/
structure Fold.Exact {L E R : Type} (fold : Fold L E R) (combine : L → E → R) : Prop where
  forward_eq : ∀ context left element, fold.forward context left element = combine left element
  inverses_iff : ∀ {v left element}, fold.leftInverse v = some left
    ∧ fold.rightInverse v = some element ↔ combine left element = v

theorem Fold.pair_exact (L E : Type) : (Fold.pair L E).Exact Prod.mk where
  forward_eq _ _ _ := rfl
  inverses_iff {v left element} := by
    simp only [Fold.pair, Option.some.injEq, Prod.ext_iff, eq_comm]

theorem Fold.swappedPair_exact (L E : Type) :
    (Fold.swappedPair L E).Exact fun left element => (element, left) where
  forward_eq _ _ _ := rfl
  inverses_iff {v left element} := by
    simp only [Fold.swappedPair, Option.some.injEq, Prod.ext_iff, eq_comm, and_comm]

namespace Sequence

variable {α : Type}

/-- Sequences of any other length are not taken apart. -/
theorem pairFold_exact (α : Type) :
    (pairFold α).Exact fun left element => ofList [left, element] where
  forward_eq _ _ _ := rfl
  inverses_iff {v left element} := by
    simp only [pairFold, Option.ite_none_right_eq_some, get?_eq_getElem?, last?_eq_getLast?,
      size_eq_length, ← toList_inj, toList_ofList]
    constructor
    · rintro ⟨⟨hsize, hleft⟩, -, hlast⟩
      obtain ⟨x, y, hv⟩ := List.length_eq_two.mp hsize
      rw [hv] at hleft hlast ⊢
      obtain rfl : x = left := by simpa using hleft
      obtain rfl : y = element := by simpa using hlast
      rfl
    · intro hv
      rw [← hv]
      exact ⟨⟨rfl, rfl⟩, rfl, rfl⟩

end Sequence

/-! ## Reading and printing -/

namespace Grammar

/-- The text is two words with the separator between them, and the value what the two are combined
to. -/
def CombinesWords {R : Type} (separator : String) (combine : String → String → R) (t : String)
    (v : R) : Prop :=
  ∃ x y, IsWord x ∧ IsWord y ∧ t = x ++ separator ++ y ∧ v = combine x y

section TwoWords

variable {R : Type} {separator : String} {fold : Fold String String R}
  {combine : String → String → R} {t : String} {v : R}

theorem twoWords_parse_iff (hcloses : ∀ tail, EndsWord (separator.toList ++ tail))
    (hfold : fold.Exact combine) :
    (twoWords separator fold).parse? t = some v ↔ CombinesWords separator combine t v := by
  have helement : (Rule.prefixed separator .word).ReadsWords separator id := by
    have hprefixed := Rule.ReadsWords.word.prefixed separator
    rwa [String.append_empty] at hprefixed
  have htail : (Reduction.put (.prefixed separator .word) fold).ReadsToEnd
      (fun w : Word => (separator ++ w.val).toList) (fun left w v => combine left w.val = v) :=
    helement.readsToEnd_put fun context left w => hfold.forward_eq context left w.val
  have hends : ∀ w : Word, EndsWord (separator ++ w.val).toList := fun w => by
    rw [String.toList_append]
    exact hcloses w.val.toList
  have hparse := parseAll?_word_reduce Rule.ReadsWords.word htail hends (t := t) (v := v)
  refine hparse.trans ?_
  simp only [id_eq, String.empty_append, ← String.toList_append, String.toList_inj,
    ← String.append_assoc]
  constructor
  · rintro ⟨x, y, hv, ht⟩
    exact ⟨x.val, y.val, x.property, y.property, ht, hv.symm⟩
  · rintro ⟨x, y, hx, hy, ht, hv⟩
    exact ⟨⟨x, hx⟩, ⟨y, hy⟩, hv.symm, ht⟩

/-- The text of a value, if it is taken apart into two words. -/
def twoWordsText? (separator : String) (fold : Fold String String R) (v : R) : Option String :=
  (fold.rightInverse v).bind fun element => (fold.leftInverse v).bind fun left =>
    (Word.ofText? element).bind fun y => (Word.ofText? left).map fun x =>
      x.val ++ separator ++ y.val

theorem twoWords_print (bound : Nat) (v : R) :
    (twoWords separator fold).rule.print bound v
      = .ofOption ((twoWordsText? separator fold v).map String.toList) := by
  have hput := (Rule.PrintsWords.word.prefixed separator).put_print fold bound v
  rw [twoWords, Rule.print, hput, twoWordsText?]
  cases fold.rightInverse v with
  | none => rfl
  | some element =>
      cases fold.leftInverse v with
      | none => rfl
      | some left =>
          have hhead := Rule.PrintsWords.word bound left
          simp only [Option.bind_some]
          cases Word.ofText? element with
          | none => rfl
          | some y =>
              simp only [Option.map_some, Printed.ofOption_some, Printed.done_bind, hhead,
                Option.bind_some]
              cases Word.ofText? left <;> simp

theorem twoWordsText?_eq_some_iff (hfold : fold.Exact combine) :
    twoWordsText? separator fold v = some t ↔ CombinesWords separator combine t v := by
  simp only [twoWordsText?, Option.bind_eq_some_iff, Option.map_eq_some_iff,
    Word.ofText?_eq_some_iff]
  constructor
  · rintro ⟨_, hright, _, hleft, y, rfl, x, rfl, rfl⟩
    exact ⟨x.val, y.val, x.property, y.property, rfl, (hfold.inverses_iff.mp ⟨hleft, hright⟩).symm⟩
  · rintro ⟨x, y, hx, hy, rfl, rfl⟩
    have hparts : fold.leftInverse (combine x y) = some x
        ∧ fold.rightInverse (combine x y) = some y := hfold.inverses_iff.mpr rfl
    obtain ⟨hleft, hright⟩ := hparts
    exact ⟨y, hright, x, hleft, ⟨y, hy⟩, rfl, ⟨x, hx⟩, rfl, rfl⟩

/-- Behind a word the separator cannot go on with it, and the fold gives back what it was given. -/
theorem twoWords_exact (hcloses : ∀ tail, EndsWord (separator.toList ++ tail))
    (hfold : fold.Exact combine) :
    (twoWords separator fold).Exact (CombinesWords separator combine) :=
  exact_of (twoWordsText? separator fold) (fun _ _ => twoWords_parse_iff hcloses hfold)
    (twoWords_print _) fun _ _ => twoWordsText?_eq_some_iff hfold

end TwoWords

end Grammar

/-- Two words with a sign between them are read and printed exactly: as a sequence of two, as a pair
in their order, and as a pair with the second one first. -/
theorem two_words_exact :
    (Grammar.binary "=").Exact (Grammar.CombinesWords "=" fun x y => Sequence.ofList [x, y])
    ∧ (Grammar.pair ":").Exact (Grammar.CombinesWords ":" fun x y => (x, y))
    ∧ (Grammar.swappedPair ":").Exact (Grammar.CombinesWords ":" fun x y => (y, x)) := by
  have hequals : ∀ tail, EndsWord ("=".toList ++ tail) := fun _ => endsWord_cons.mpr (by decide)
  have hcolon : ∀ tail, EndsWord (":".toList ++ tail) := fun _ => endsWord_cons.mpr (by decide)
  exact ⟨Grammar.twoWords_exact hequals (Sequence.pairFold_exact String),
    Grammar.twoWords_exact hcolon (Fold.pair_exact String String),
    Grammar.twoWords_exact hcolon (Fold.swappedPair_exact String String)⟩

end Biparse
