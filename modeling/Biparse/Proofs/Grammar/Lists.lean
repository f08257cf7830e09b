import Biparse.Grammar.List
import Biparse.Proofs.Grammar.Printing
import Biparse.Proofs.Sequence.Permutation

/-!
# Lists of words, read and printed

The two list grammars write the same texts and differ in where the comma stands. One joins its words
by commas and starts from the empty sequence; the other joins words that bring their comma along and
starts from a first word. Both read a text exactly when it is some words with commas between them.

Printing takes words off the end and never comes back: it stops without a word at the floor of the
fold, and at an element that is no word (`undone_appendFold`). It is then for the start of the list
to tell the two apart, and both do: what is left is empty or a single word exactly when all elements
are words.
-/

namespace Biparse

/-- All texts of a list are words. -/
def AllWords (texts : List String) : Prop := ∀ text ∈ texts, IsWord text

instance (texts : List String) : Decidable (AllWords texts) :=
  inferInstanceAs (Decidable (∀ text ∈ texts, IsWord text))

theorem allWords_iff {texts : List String} :
    AllWords texts ↔ ∃ ws : List Word, ws.map Subtype.val = texts := by
  constructor
  · intro h
    exact ⟨texts.attachWith IsWord h, List.attachWith_map_subtype_val h⟩
  · rintro ⟨ws, rfl⟩ text htext
    obtain ⟨w, -, rfl⟩ := List.mem_map.mp htext
    exact w.property

theorem joined_words (separator : String) (ws : List Word) :
    joined separator.toList (fun w : Word => w.val.toList) true ws
      = (separator.intercalate (ws.map Subtype.val)).toList := by
  rw [String.toList_intercalate, List.map_map]
  rfl

namespace Grammar

/-! ## Reading -/

/-- Words appended one after another. -/
theorem foldlM_push_eq_some_iff {ws : List Word} {s r : Sequence String} :
    ws.foldlM (fun s w => some (s.push w.val)) s = some r ↔
      r.toList = s.toList ++ ws.map Subtype.val := by
  have hpure : ws.foldlM (fun (s : Sequence String) w => some (s.push w.val)) s
      = some ((ws.map Subtype.val).foldl Sequence.push s) := by
    rw [List.foldl_map]
    exact List.foldlM_pure
  rw [hpure, Option.some.injEq, ← Sequence.toList_inj, Sequence.toList_foldl_push, eq_comm]

theorem readsAs_appendFold {element : Rule String} {lead : String} (h : element.ReadsWords lead id)
    (floor : Nat) :
    ReadsAs (Reduction.put element (Sequence.appendFold String floor)).parse
      (fun w : Word => (lead ++ w.val).toList) (fun s w => some (s.push w.val)) EndsWord :=
  h.readsAs_put fun _ _ _ => rfl

/-- Behind a comma a word cannot go on. -/
theorem endsWord_joined_comma {text : Word → List Char} (ws : List Word) :
    EndsWord (joined ",".toList text false ws) := by
  cases ws with
  | nil => exact endsWord_nil
  | cons w rest =>
      rw [joined_cons]
      exact endsWord_cons.mpr (by decide)

theorem list_parse_iff {floor : Nat} {t : String} {s : Sequence String} :
    (list "," floor).parse? t = some s ↔ AllWords s.toList ∧ t = ",".intercalate s.toList := by
  have hreads := readsAs_appendFold Rule.ReadsWords.word floor
  have htext : (fun w : Word => ("" ++ w.val).toList) = fun w => w.val.toList := by
    funext w
    rw [String.empty_append]
  rw [htext] at hreads
  have hparse := parseAll?_initial_reduce (hreads.readsToEnd_join endsWord_joined_comma)
    (Sequence.initializer String) (t := t) (v := s)
  simp only [foldlM_push_eq_some_iff, joined_words, String.toList_inj] at hparse
  refine hparse.trans ?_
  rw [allWords_iff]
  constructor
  · rintro ⟨ws, hs, rfl⟩
    rw [show s.toList = ws.map Subtype.val from hs]
    exact ⟨⟨ws, rfl⟩, rfl⟩
  · rintro ⟨⟨ws, hs⟩, rfl⟩
    exact ⟨ws, hs.symm, by rw [hs]⟩

theorem nonemptyList_parse_iff {floor : Nat} {t : String} {s : Sequence String} :
    (nonemptyList "," floor).parse? t = some s ↔
      (s.toList ≠ [] ∧ AllWords s.toList) ∧ t = ",".intercalate s.toList := by
  have hhead : (Rule.reduce .word (.apply (Sequence.singleton String))).ReadsWords ""
      fun text => Sequence.empty.push text :=
    Rule.ReadsWords.word.reduce_apply fun _ _ => rfl
  have helement : (Rule.prefixed "," .word).ReadsWords "," id := Rule.ReadsWords.word.prefixed ","
  have hreads := readsAs_appendFold helement floor
  have htext : (fun w : Word => ("," ++ w.val).toList)
      = fun w => ",".toList ++ w.val.toList := by
    funext w
    rw [String.toList_append]
  rw [htext] at hreads
  -- the separator is empty; what ends a word is the comma of the next one
  have hnone : ∀ first (ws : List Word),
      joined "".toList (fun w : Word => ",".toList ++ w.val.toList) first ws
        = joined ",".toList (fun w => w.val.toList) false ws := joined_nil_separator _ _
  have hcloses : ∀ first (ws : List Word),
      EndsWord (joined "".toList (fun w : Word => ",".toList ++ w.val.toList) first ws) := by
    intro first ws
    rw [hnone]
    exact endsWord_joined_comma ws
  have hparse := parseAll?_word_reduce hhead (hreads.readsToEnd_join (hcloses false))
    (hcloses true) (t := t) (v := s)
  have hwhole : ∀ (w : Word) (ws : List Word),
      ("" ++ w.val).toList ++ joined ",".toList (fun w : Word => w.val.toList) false ws
        = (",".intercalate ((w :: ws).map Subtype.val)).toList := by
    intro w ws
    rw [← joined_words, joined_cons, String.empty_append, if_pos rfl, List.nil_append]
  simp only [foldlM_push_eq_some_iff, hnone, hwhole, String.toList_inj] at hparse
  refine hparse.trans ?_
  rw [allWords_iff]
  constructor
  · rintro ⟨w, ws, hs, rfl⟩
    have hs' : s.toList = (w :: ws).map Subtype.val := hs
    rw [hs']
    exact ⟨⟨List.cons_ne_nil _ _, ⟨w :: ws, rfl⟩⟩, rfl⟩
  · rintro ⟨⟨hne, ⟨_ | ⟨w, ws⟩, hs⟩⟩, rfl⟩
    · exact absurd hs.symm hne
    · exact ⟨w, ws, hs.symm, by rw [hs]⟩

/-! ## Printing -/

/-- There is no word to take off the end. -/
def Stuck (floor : Nat) (s : Sequence String) : Prop :=
  s.size ≤ floor ∨ ∃ (p : Sequence String) (text : String), s = p.push text ∧ ¬ IsWord text

theorem Stuck.not_allWords {floor : Nat} {s : Sequence String} (h : Stuck floor s)
    (hfloor : floor < s.size) : ¬ AllWords s.toList := by
  rcases h with hle | ⟨p, text, rfl, htext⟩
  · exact absurd hfloor (Nat.not_lt.mpr hle)
  · intro hwords
    exact htext (hwords text (by simp))

/-- Printing takes words off the end of a sequence, down to the floor or to an element that is no
word. -/
theorem undone_appendFold {element : Rule String} {lead : String}
    (h : element.PrintsWords lead Word.ofText?) (floor bound : Nat) (s : Sequence String) :
    ∃ (left : Sequence String) (ws : List Word), s.toList = left.toList ++ ws.map Subtype.val
      ∧ min floor s.size ≤ left.size
      ∧ Stuck floor left
      ∧ Undone (fun s => (Reduction.put element (Sequence.appendFold String floor)).print bound s) s
        (ws.map fun w => (lead ++ w.val).toList) left := by
  have hfloor : ∀ s : Sequence String, s.size ≤ floor →
      (Reduction.put element (Sequence.appendFold String floor)).print bound s = .refused := by
    intro s hs
    rw [h.put_print]
    simp [Sequence.appendFold, Sequence.splitAbove?, hs]
  have hpush : ∀ (p : Sequence String) (text : String), floor < (p.push text).size →
      (Reduction.put element (Sequence.appendFold String floor)).print bound (p.push text)
        = .ofOption ((Word.ofText? text).map fun w => (p, (lead ++ w.val).toList)) := by
    intro p text hs
    have hsplit : (p.push text).splitAbove? floor = some (p, text) := by
      rw [Sequence.splitAbove?, if_neg (Nat.not_le.mpr hs)]
      exact Sequence.splitLast?_eq_some_iff.mpr rfl
    rw [h.put_print]
    simp only [Sequence.appendFold, hsplit, Option.map_some, Option.bind_some]
  induction s using Sequence.push_induction with
  | empty => exact ⟨.empty, [], rfl, Nat.min_le_right _ _, .inl (Nat.zero_le _),
      .refused (hfloor _ (Nat.zero_le _))⟩
  | push p text ih =>
      by_cases hs : (p.push text).size ≤ floor
      · exact ⟨p.push text, [], by simp, Nat.min_le_right _ _, .inl hs, .refused (hfloor _ hs)⟩
      · have hprint := hpush p text (Nat.not_le.mp hs)
        by_cases htext : IsWord text
        · obtain ⟨left, ws, hp, hsize, hstuck, hundone⟩ := ih
          refine ⟨left, ws ++ [⟨text, htext⟩], ?_, ?_, hstuck, ?_⟩
          · simp [hp]
          · have hsucc : (p.push text).size = p.size + 1 := rfl
            omega
          · have hword : Word.ofText? text = some ⟨text, htext⟩ := dif_pos htext
            rw [hword] at hprint
            rw [List.map_append]
            exact .item hprint hundone
        · have hnone : Word.ofText? text = none := dif_neg htext
          rw [hnone] at hprint
          exact ⟨p.push text, [], by simp, Nat.min_le_right _ _, .inr ⟨p, text, rfl, htext⟩,
            .refused hprint⟩

theorem join_print {element : Rule String} {lead : String}
    (h : element.PrintsWords lead Word.ofText?) (separator : String) (floor : Nat) {bound : Nat}
    {s : Sequence String} (hbound : s.size < bound) :
    ∃ (left : Sequence String) (ws : List Word), s.toList = left.toList ++ ws.map Subtype.val
      ∧ min floor s.size ≤ left.size ∧ Stuck floor left
      ∧ (Reduction.join separator (.put element (Sequence.appendFold String floor))).print bound s
        = .done (left, separator.toList.intercalate (ws.map fun w => (lead ++ w.val).toList)) := by
  obtain ⟨left, ws, hs, hsize, hstuck, hundone⟩ := undone_appendFold h floor bound s
  refine ⟨left, ws, hs, hsize, hstuck, ?_⟩
  have hfew : (ws.map fun w => (lead ++ w.val).toList).length < bound := by
    have hlength := congrArg List.length hs
    rw [← Sequence.size_eq_length, List.length_append, List.length_map] at hlength
    rw [List.length_map]
    omega
  rw [Reduction.print, undoItems_eq_of_undone hundone hfew []]
  simp

theorem list_print {bound : Nat} {s : Sequence String} (hbound : s.size < bound) :
    (list "," 0).rule.print bound s
      = if AllWords s.toList then .done (",".intercalate s.toList).toList else .refused := by
  obtain ⟨left, ws, hs, -, hstuck, hjoin⟩ :=
    join_print Rule.PrintsWords.word "," 0 hbound
  have hprint : (list "," 0).rule.print bound s
      = (if left.isEmpty then .done [] else .refused) >>= fun headText =>
          .done (headText ++ ",".toList.intercalate (ws.map fun w => ("" ++ w.val).toList)) := by
    rw [list, listRule, Rule.print, hjoin]
    rfl
  rw [hprint]
  by_cases hleft : left.toList = []
  · have hwords : s.toList = ws.map Subtype.val := by rw [hs, hleft, List.nil_append]
    have htext := joined_words "," ws
    rw [if_pos (Sequence.isEmpty_iff.mpr hleft), hwords, if_pos (allWords_iff.mpr ⟨ws, rfl⟩),
      ← htext]
    simp [joined]
  · have hpos : 0 < left.size := by
      rw [Sequence.size_eq_length]
      exact List.length_pos_iff.mpr hleft
    have hrest : ¬ AllWords s.toList := fun hwords =>
      hstuck.not_allWords hpos fun text htext =>
        hwords text (hs ▸ List.mem_append_left _ htext)
    rw [if_neg (by rwa [Sequence.isEmpty_iff]), if_neg hrest]
    rfl

theorem nonemptyList_print {bound : Nat} {s : Sequence String} (hbound : s.size < bound) :
    (nonemptyList "," 1).rule.print bound s
      = if s.toList ≠ [] ∧ AllWords s.toList then .done (",".intercalate s.toList).toList
        else .refused := by
  obtain ⟨left, ws, hs, hsize, hstuck, hjoin⟩ :=
    join_print (Rule.PrintsWords.word.prefixed ",") "" 1 hbound
  have hhead : (Rule.reduce .word (.apply (Sequence.singleton String))).PrintsWords ""
      fun s => ((Sequence.singleton String).backward s).bind Word.ofText? :=
    Rule.PrintsWords.word.reduce_apply _
  have hprint : (nonemptyList "," 1).rule.print bound s
      = .ofOption ((((Sequence.singleton String).backward left).bind Word.ofText?).map fun w =>
          w.val.toList ++ "".toList.intercalate (ws.map fun w => ("," ++ "" ++ w.val).toList)) := by
    rw [nonemptyList, Rule.print, hjoin]
    simp only [Printed.done_bind, hhead bound left]
    cases ((Sequence.singleton String).backward left).bind Word.ofText? <;> simp
  rw [hprint]
  by_cases hone : left.size = 1
  · -- one element is left, and it is for the head to say whether it is a word
    obtain ⟨first, hfirst⟩ : ∃ first, left.toList = [first] := by
      rw [Sequence.size_eq_length] at hone
      exact List.length_eq_one_iff.mp hone
    have hlast : (Sequence.singleton String).backward left = some first := by
      simp only [Sequence.singleton, if_pos hone]
      rw [Sequence.last?_eq_getLast?, hfirst]
      rfl
    rw [hlast, Option.bind_some, hs, hfirst]
    by_cases hword : IsWord first
    · have hwords : [first] ++ ws.map Subtype.val
          = ((⟨first, hword⟩ : Word) :: ws).map Subtype.val := rfl
      have htext : (",".intercalate (((⟨first, hword⟩ : Word) :: ws).map Subtype.val)).toList
          = first.toList
            ++ "".toList.intercalate (ws.map fun w => ("," ++ "" ++ w.val).toList) := by
        rw [← joined_words, joined_cons, ← joined_nil_separator _ _ true]
        simp [joined]
      rw [hwords, if_pos ⟨List.cons_ne_nil _ _, allWords_iff.mpr ⟨_, rfl⟩⟩, htext,
        Word.ofText?, dif_pos hword]
      rfl
    · rw [if_neg (fun h => hword (h.2 first (by simp))), Word.ofText?, dif_neg hword]
      rfl
  · have hnone : (Sequence.singleton String).backward left = none := if_neg hone
    rw [hnone, if_neg]
    · rfl
    · rintro ⟨hne, hwords⟩
      have hpos : 1 ≤ s.size := by
        rw [Sequence.size_eq_length]
        exact List.length_pos_iff.mpr hne
      exact hstuck.not_allWords (by omega) fun text htext =>
        hwords text (hs ▸ List.mem_append_left _ htext)

/-! ## Reordered lists -/

section Permuted

variable {p : Permutation}

theorem permutedList_parse_iff {floor : Nat} {t : String} {s : Sequence String} :
    (permutedList p "," floor).parse? t = some s ↔
      ∃ words : List String, AllWords words ∧ t = ",".intercalate words
        ∧ p.Arranges words s.toList := by
  have hparse : (permutedList p "," floor).parse? t
      = ((list "," floor).parse? t).bind fun words =>
          ((p.mapping String).forward ⟨0, byteCount t.toList⟩ words).toOption :=
    parseAll?_reduce_apply _ _ t
  simp only [hparse, Option.bind_eq_some_iff, list_parse_iff, toOption_eq_some_iff,
    Permutation.forward_eq_ok_iff]
  constructor
  · rintro ⟨words, ⟨hwords, ht⟩, harranges⟩
    exact ⟨words.toList, hwords, ht, harranges⟩
  · rintro ⟨words, hwords, ht, harranges⟩
    exact ⟨.ofList words, by simpa using ⟨hwords, ht⟩, by simpa using harranges⟩

theorem permutedList_print {bound : Nat} {s : Sequence String} (hbound : s.size < bound) :
    (permutedList p "," 0).rule.print bound s
      = .ofOption ((((p.mapping String).backward s).bind fun words =>
          if AllWords words.toList then some (",".intercalate words.toList) else none).map
            String.toList) := by
  have hprint : (permutedList p "," 0).rule.print bound s
      = .ofOption ((p.mapping String).backward s) >>= fun words =>
          (list "," 0).rule.print bound words := by
    simp only [permutedList, list, Rule.print, Reduction.print]
    cases (p.mapping String).backward s <;> simp
  rw [hprint]
  cases hback : (p.mapping String).backward s with
  | none => rfl
  | some words =>
      have harranges := Permutation.backward_eq_some_iff.mp hback
      have hsize : words.size < bound := by
        rw [Sequence.size_eq_length] at hbound ⊢
        rwa [harranges.1, ← harranges.length_eq]
      simp only [Printed.ofOption_some, Printed.done_bind, list_print hsize, Option.bind_some]
      split <;> rfl

theorem permutedList_exact (p : Permutation) :
    (permutedList p "," 0).Exact fun t s => ∃ words : List String,
      AllWords words ∧ t = ",".intercalate words ∧ p.Arranges words s.toList := by
  refine exact_of (fun s => ((p.mapping String).backward s).bind fun words =>
      if AllWords words.toList then some (",".intercalate words.toList) else none)
    (fun t s => permutedList_parse_iff)
    (fun s => permutedList_print (show s.size < s.size + 1 from Nat.lt_succ_self _)) fun t s => ?_
  simp only [Option.bind_eq_some_iff, Permutation.backward_eq_some_iff,
    Option.ite_none_right_eq_some, Option.some.injEq]
  constructor
  · rintro ⟨words, harranges, hwords, rfl⟩
    exact ⟨words.toList, hwords, rfl, harranges⟩
  · rintro ⟨words, hwords, rfl, harranges⟩
    refine ⟨.ofList words, ?_, ?_⟩
    · rwa [Sequence.toList_ofList]
    · rw [Sequence.toList_ofList]
      exact ⟨hwords, rfl⟩

end Permuted

end Grammar

/-- Comma-separated lists are read and printed exactly: those that may be empty, those that may not,
and those that are held in another order than they are written in, which have as many words as the
order has places. -/
theorem comma_lists_exact :
    (Grammar.list "," 0).Exact (fun t s => AllWords s.toList ∧ t = ",".intercalate s.toList)
    ∧ (Grammar.nonemptyList "," 1).Exact (fun t s =>
      (s.toList ≠ [] ∧ AllWords s.toList) ∧ t = ",".intercalate s.toList)
    ∧ ∀ order p, Permutation.ofOrder order = .ok p →
      (Grammar.permutedList p "," 0).Exact fun t s => ∃ words : List String,
        AllWords words ∧ t = ",".intercalate words ∧ words.length = order.length
          ∧ s.toList.map some = order.map fun i => words[i]? := by
  refine ⟨?_, ?_, fun order p hp => ?_⟩
  · exact Grammar.exact_of_ite (fun t s => Grammar.list_parse_iff) fun s =>
      Grammar.list_print (show s.size < s.size + 1 from Nat.lt_succ_self _)
  · exact Grammar.exact_of_ite (fun t s => Grammar.nonemptyList_parse_iff) fun s =>
      Grammar.nonemptyList_print (show s.size < s.size + 1 from Nat.lt_succ_self _)
  · obtain rfl := Permutation.ofOrder_eq_ok_iff.mp hp
    exact Grammar.permutedList_exact p

/-- Three words in an order that is not its own inverse. -/
theorem comma_lists_exact_rotated :
    ∃ p, Permutation.ofOrder [2, 0, 1] = .ok p
      ∧ (Grammar.permutedList p "," 0).parse? "x,y,z" = some (.ofList ["z", "x", "y"])
      ∧ (Grammar.permutedList p "," 0).print? (.ofList ["z", "x", "y"]) = some "x,y,z" := by
  obtain ⟨p, hp⟩ : ∃ p, Permutation.ofOrder [2, 0, 1] = .ok p :=
    ⟨⟨[2, 0, 1], by decide, by decide⟩, Permutation.ofOrder_eq_ok_iff.mpr rfl⟩
  have hexact := comma_lists_exact.2.2 [2, 0, 1] p hp
  have hmeans : ∃ words : List String, AllWords words ∧ "x,y,z" = ",".intercalate words
      ∧ words.length = [2, 0, 1].length
      ∧ (Sequence.ofList ["z", "x", "y"]).toList.map some = [2, 0, 1].map fun i => words[i]? :=
    ⟨["x", "y", "z"], by decide, by decide, rfl, rfl⟩
  exact ⟨p, hp, (hexact.parse_iff _ _).mpr hmeans, (hexact.print_iff _ _).mpr hmeans⟩

end Biparse
