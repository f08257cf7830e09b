import Biparse.Grammar.List
import Biparse.Proofs.Grammar.Printing

/-!
# Counters, read and printed

A counter starts from a number and adds one for every mark. Reading goes up as far as the integers
go: the mark that would lead past the largest one is given back, and a text that holds it is not
read (`counter_parse_iff`). Printing goes down as far as the floor of the counter, whatever the
start is, and only then looks whether it has arrived at the start (`undone_marks`,
`counter_print`). So the two are inverse to each other where the start is the floor, and nowhere
else: from any other start a counter that has counted anything cannot be printed
(`counters_count_marks`).
-/

namespace Biparse

/-! ## Single steps -/

namespace Integer

variable {floor n next previous : Int64}

/-- There is a step up exactly where there is a next integer, and it leads there. -/
theorem increment_forward_eq_ok_iff {context : Span} :
    (increment floor).forward context n = .ok next ↔ next.toInt = n.toInt + 1 := by
  have hmax : maxValue.toInt = 2 ^ 63 - 1 := Int64.toInt_maxValue
  have hnext := next.toInt_lt
  have hn := n.le_toInt
  have hone : (1 : Int64).toInt = 1 := rfl
  simp only [increment]
  by_cases h : n = maxValue
  · rw [if_pos h]
    refine ⟨(nomatch ·), fun hstep => ?_⟩
    rw [h, hmax] at hstep
    omega
  · have hlt : n.toInt < 2 ^ 63 - 1 := by
      have hle : n.toInt ≤ maxValue.toInt := n.toInt_le
      have hne : n.toInt ≠ maxValue.toInt := fun heq => h (Int64.toInt_inj.mp heq)
      omega
    have hsum : (n + 1).toInt = n.toInt + 1 := by
      rw [Int64.toInt_add, hone]
      exact Int.bmod_eq_of_le (by omega) (by omega)
    rw [if_neg h, Except.ok.injEq, ← Int64.toInt_inj, hsum, eq_comm]

/-- There is a step down exactly above the floor, and it leads to the integer before. -/
theorem increment_backward_eq_some_iff :
    (increment floor).backward n = some previous ↔
      floor.toInt < n.toInt ∧ previous.toInt = n.toInt - 1 := by
  have hfloor := floor.le_toInt
  have hn := n.toInt_lt
  have hone : (1 : Int64).toInt = 1 := rfl
  simp only [increment]
  rw [Option.ite_none_right_eq_some, Int64.lt_iff_toInt_lt, Option.some.injEq]
  refine and_congr_right fun h => ?_
  have hdifference : (n - 1).toInt = n.toInt - 1 := by
    rw [Int64.toInt_sub, hone]
    exact Int.bmod_eq_of_le (by omega) (by omega)
  rw [← Int64.toInt_inj, hdifference, eq_comm]

end Integer

/-! ## Marks -/

/-- A mapping behind a literal reads the literal over and over, and takes one step for each. -/
theorem readsAs_prefixed_apply {T : Type} {mapping : Mapping T T} {literal : String}
    (hliteral : literal ≠ "")
    (hcontext : ∀ context v, mapping.forward context v = mapping.forward (.empty 0) v) :
    ReadsAs (Reduction.prefixed literal (.apply mapping)).parse (fun _ : Unit => literal.toList)
      (fun v _ => (mapping.forward (.empty 0) v).toOption) fun _ => True where
  text_ne_nil _ := fun hnil => hliteral (String.toList_eq_nil_iff.mp hnil)
  read {v next e s tail} hstep hrest _ := by
    have heat : s.eat? literal.toList = some (s.advance literal.toList.length) :=
      Stream.eat?_eq_some_iff.mpr ⟨by simp [hrest], rfl⟩
    simp only [Reduction.parse, heat, hcontext, hstep]
  written {v next s s'} hparse := by
    simp only [Reduction.parse] at hparse
    cases heat : s.eat? literal.toList with
    | none => simp [heat] at hparse
    | some after =>
        obtain ⟨hstarts, rfl⟩ := Stream.eat?_eq_some_iff.mp heat
        rw [heat] at hparse
        simp only [hcontext] at hparse
        cases hstep : (mapping.forward (.empty 0) v).toOption with
        | none => simp [hstep] at hparse
        | some value =>
            obtain ⟨rfl, rfl⟩ : value = next ∧ _ = s' := by simpa [hstep] using hparse
            exact ⟨(), rfl, List.isPrefixOf_iff_prefix.mp hstarts, rfl⟩

theorem intercalate_marks (k : Nat) :
    "".toList.intercalate (List.replicate k "!".toList) = List.replicate k '!' := by
  have hmarks : ∀ marks : List Unit, joined "".toList (fun _ => "!".toList) true marks
      = List.replicate marks.length '!' := by
    intro marks
    rw [← List.map_const', List.map_eq_flatMap]
    exact joined_nil_separator [] (fun _ => "!".toList) true marks
  have hunits := hmarks (List.replicate k ())
  rwa [joined, if_pos rfl, List.map_replicate, List.length_replicate] at hunits

namespace Grammar

variable {start floor n left : Int64}

/-! ## Reading -/

/-- As many steps up as there are marks, if there are integers that far. -/
theorem foldlM_increment_eq_some_iff {marks : List Unit} :
    marks.foldlM (fun n _ => ((Integer.increment floor).forward (.empty 0) n).toOption) start
      = some n ↔ n.toInt = start.toInt + marks.length := by
  induction marks generalizing start with
  | nil => simp [← Int64.toInt_inj, eq_comm]
  | cons mark rest ih =>
      rw [List.foldlM_cons, Option.bind_eq_bind, Option.bind_eq_some_iff, List.length_cons,
        Int.natCast_succ]
      simp only [toOption_eq_some_iff, Integer.increment_forward_eq_ok_iff, ih]
      constructor
      · rintro ⟨next, hnext, hn⟩
        omega
      · intro hn
        have hbelow := n.toInt_lt
        have habove := start.le_toInt
        refine ⟨.ofInt (start.toInt + 1), Int64.toInt_ofInt_of_le (by omega) (by omega), ?_⟩
        rw [Int64.toInt_ofInt_of_le (by omega) (by omega)]
        omega

/-- A text is read exactly when it is marks, and the start has a successor for each of them. -/
theorem counter_parse_iff {t : String} :
    (counter start floor "!" "").parse? t = some n ↔
      ∃ k : Nat, t.toList = List.replicate k '!' ∧ n.toInt = start.toInt + k := by
  have hreads : ReadsAs (Reduction.prefixed "!" (.apply (Integer.increment floor))).parse
      (fun _ : Unit => "!".toList)
      (fun n _ => ((Integer.increment floor).forward (.empty 0) n).toOption) fun _ => True :=
    readsAs_prefixed_apply (by decide) fun _ _ => rfl
  refine Iff.trans (parseAll?_join hreads (fun _ => trivial) (.ofValue start)) ?_
  simp only [show (Initializer.ofValue start).supply (.empty 0) = start from rfl,
    foldlM_increment_eq_some_iff, List.map_const', intercalate_marks]
  constructor
  · rintro ⟨marks, hn, ht⟩
    exact ⟨marks.length, ht, hn⟩
  · rintro ⟨k, ht, hn⟩
    exact ⟨List.replicate k (), by simpa using hn, by simpa using ht⟩

/-! ## Printing -/

theorem marked_print (bound : Nat) (n : Int64) :
    (Reduction.prefixed "!" (.apply (Integer.increment floor))).print bound n
      = .ofOption (((Integer.increment floor).backward n).map (·, "!".toList)) := by
  rw [Reduction.print, Reduction.print]
  cases (Integer.increment floor).backward n with
  | none => rfl
  | some previous => simp

/-- Printing goes down to the floor, and from a number below the floor it does not go at all. -/
theorem undone_marks (bound : Nat) {k : Nat} (hk : (n.toInt - floor.toInt).toNat = k)
    (hleft : left.toInt + k = n.toInt) :
    Undone (fun n => (Reduction.prefixed "!" (.apply (Integer.increment floor))).print bound n) n
      (List.replicate k "!".toList) left := by
  induction k generalizing n with
  | zero =>
      obtain rfl : left = n := Int64.toInt_inj.mp (by simpa using hleft)
      have hfloor : (Integer.increment floor).backward left = none := by
        rw [Option.eq_none_iff_forall_ne_some]
        intro previous hprevious
        obtain ⟨hlt, -⟩ := Integer.increment_backward_eq_some_iff.mp hprevious
        omega
      exact .refused (by rw [marked_print, hfloor]; rfl)
  | succ k ih =>
      have hbelow := n.toInt_lt
      have habove := floor.le_toInt
      have hprevious : (Int64.ofInt (n.toInt - 1)).toInt = n.toInt - 1 :=
        Int64.toInt_ofInt_of_le (by omega) (by omega)
      have hback : (Integer.increment floor).backward n = some (.ofInt (n.toInt - 1)) :=
        Integer.increment_backward_eq_some_iff.mpr ⟨by omega, hprevious⟩
      rw [List.replicate_succ']
      exact .item (by rw [marked_print, hback]; rfl) (ih (by omega) (by omega))

/-- A number is printed by the marks that lead to it from the floor, if the way down ends at the
start. -/
theorem counter_print {bound : Nat} (hbound : (n.toInt - floor.toInt).toNat < bound) :
    (counter start floor "!" "").rule.print bound n
      = if start.toInt = min n.toInt floor.toInt
        then .done (List.replicate (n.toInt - floor.toInt).toNat '!') else .refused := by
  obtain ⟨left, hleft⟩ : ∃ left : Int64, left.toInt = min n.toInt floor.toInt := by
    rcases Int.le_total n.toInt floor.toInt with hle | hle
    · exact ⟨n, (Int.min_eq_left hle).symm⟩
    · exact ⟨floor, (Int.min_eq_right hle).symm⟩
  have hundone := undone_marks bound rfl (show left.toInt + (n.toInt - floor.toInt).toNat = n.toInt
    by omega)
  have hjoin := undoItems_eq_of_undone hundone (by rwa [List.length_replicate]) []
  have hprint : (counter start floor "!" "").rule.print bound n
      = (if left == start then .done [] else .refused) >>= fun headText =>
          .done (headText ++ List.replicate (n.toInt - floor.toInt).toNat '!') := by
    rw [counter, Rule.print, Reduction.print, hjoin, List.append_nil]
    simp only [Printed.done_bind, Printed.pure_eq_done, intercalate_marks, Rule.print]
    rfl
  rw [hprint, ← hleft]
  by_cases h : left = start
  · rw [if_pos (beq_iff_eq.mpr h), if_pos (congrArg Int64.toInt h.symm)]
    rfl
  · rw [if_neg (mt beq_iff_eq.mp h), if_neg fun heq => h (Int64.toInt_inj.mp heq).symm]
    rfl

theorem lt_bound (start floor n : Int64) :
    (n.toInt - floor.toInt).toNat < (counter start floor "!" "").bound n := Nat.lt_succ_self _

theorem counter_print? :
    (counter start floor "!" "").print? n
      = if start.toInt = min n.toInt floor.toInt
        then some (String.ofList (List.replicate (n.toInt - floor.toInt).toNat '!')) else none := by
  rw [Grammar.print?, counter_print (lt_bound start floor n)]
  split <;> rfl

theorem counter_boundSuffices : (counter start floor "!" "").BoundSuffices := by
  intro n bound hle
  rw [counter_print?, counter_print (Nat.lt_of_lt_of_le (lt_bound start floor n) hle)]
  split
  · simp
  · rfl

theorem counter_print_iff {t : String} :
    (counter start floor "!" "").print? n = some t ↔
      (start = floor ∧ floor ≤ n
          ∧ t.toList = List.replicate (n.toInt - floor.toInt).toNat '!')
        ∨ (n = start ∧ start ≤ floor ∧ t = "") := by
  have hmarks : String.ofList (List.replicate (n.toInt - floor.toInt).toNat '!') = t ↔
      t.toList = List.replicate (n.toInt - floor.toInt).toNat '!' := by
    rw [← String.toList_inj, String.toList_ofList, eq_comm]
  rw [counter_print?, Option.ite_none_right_eq_some, Option.some.injEq, hmarks]
  simp only [← Int64.toInt_inj, Int64.le_iff_toInt_le, ← String.toList_eq_nil_iff]
  constructor
  · rintro ⟨hstart, ht⟩
    rcases Int.le_total n.toInt floor.toInt with hle | hle
    · have hnone : (n.toInt - floor.toInt).toNat = 0 := by omega
      exact .inr ⟨by omega, by omega, by rw [ht, hnone, List.replicate_zero]⟩
    · exact .inl ⟨by omega, hle, ht⟩
  · rintro (⟨hstart, hle, ht⟩ | ⟨hstart, hle, ht⟩)
    · exact ⟨by omega, ht⟩
    · have hnone : (n.toInt - floor.toInt).toNat = 0 := by omega
      exact ⟨by omega, by rw [ht, hnone, List.replicate_zero]⟩

/-- A counter that starts at its floor is printed as it is read. -/
theorem counter_parse_iff_print {t : String} :
    (counter floor floor "!" "").parse? t = some n ↔
      (counter floor floor "!" "").print? n = some t := by
  rw [counter_parse_iff, counter_print_iff, Int64.le_iff_toInt_le]
  constructor
  · rintro ⟨k, ht, hn⟩
    have hk : (n.toInt - floor.toInt).toNat = k := by omega
    exact .inl ⟨rfl, by omega, by rw [ht, hk]⟩
  · rintro (⟨-, hle, ht⟩ | ⟨rfl, -, rfl⟩)
    · exact ⟨_, ht, by omega⟩
    · exact ⟨0, rfl, by simp⟩

/-- Behind at least one mark the way down from the number ends at the floor, or goes nowhere. -/
theorem counter_print?_of_parse (hne : start ≠ floor) {t : String} (ht : t ≠ "")
    (hparse : (counter start floor "!" "").parse? t = some n) :
    (counter start floor "!" "").print? n = none := by
  obtain ⟨k, hmarks, hn⟩ := counter_parse_iff.mp hparse
  have hpos : k ≠ 0 := by
    rintro rfl
    exact ht (String.toList_eq_nil_iff.mp hmarks)
  have hapart : start.toInt ≠ floor.toInt := mt Int64.toInt_inj.mp hne
  rw [counter_print?, if_neg]
  omega

end Grammar

/-- A text is read as a number exactly when it is marks that lead there from the start without
leaving the integers. Printing gives the marks that lead there from the floor where that is the
start, and nothing for a start at or below the floor; no other number is printed, under any bound.
So reading and printing are inverse for a counter that starts at its floor, and any other counter
does not print what it has counted. No step leaves the integers. -/
theorem counters_count_marks (start floor : Int64) :
    (∀ t n, (Grammar.counter start floor "!" "").parse? t = some n ↔
      ∃ k : Nat, t.toList = List.replicate k '!' ∧ start.toInt + k ≤ Int64.maxValue.toInt
        ∧ n.toInt = start.toInt + k)
    ∧ (∀ t n, (Grammar.counter start floor "!" "").print? n = some t ↔
      (start = floor ∧ floor ≤ n ∧ t.toList = List.replicate (n.toInt - floor.toInt).toNat '!')
        ∨ (n = start ∧ start ≤ floor ∧ t = ""))
    ∧ (Grammar.counter start floor "!" "").BoundSuffices
    ∧ (start = floor → ∀ t n, (Grammar.counter start floor "!" "").parse? t = some n ↔
      (Grammar.counter start floor "!" "").print? n = some t)
    ∧ (start ≠ floor → ∀ t n, (Grammar.counter start floor "!" "").parse? t = some n → t ≠ "" →
      (Grammar.counter start floor "!" "").print? n = none)
    ∧ ∀ n, (∀ context next, (Integer.increment floor).forward context n = .ok next ↔
        next.toInt = n.toInt + 1)
      ∧ ∀ previous, (Integer.increment floor).backward n = some previous ↔
        floor.toInt < n.toInt ∧ previous.toInt = n.toInt - 1 := by
  refine ⟨fun t n => ?_, fun t n => Grammar.counter_print_iff, Grammar.counter_boundSuffices,
    ?_, fun hne t n hparse ht => Grammar.counter_print?_of_parse hne ht hparse, fun n =>
    ⟨fun context next => Integer.increment_forward_eq_ok_iff,
      fun previous => Integer.increment_backward_eq_some_iff⟩⟩
  · rw [Grammar.counter_parse_iff]
    refine exists_congr fun k => and_congr_right fun _ => ⟨fun hn => ⟨?_, hn⟩, And.right⟩
    rw [← hn]
    exact n.toInt_le
  · rintro rfl t n
    exact Grammar.counter_parse_iff_print

/-- Two marks from the integer before the largest one. -/
example : (Grammar.counter (Int64.maxValue - 1) 0 "!" "").parse? "!!" = none := by decide

end Biparse
