import Biparse.Proofs.Grammar.Counters
import Biparse.Proofs.KeyedMap.Inversion
import Biparse.Proofs.PropertyMap.Inversion
import Biparse.Proofs.Sequence.Unwinding

/-!
# Undoing the items of a join comes to an end

A join prints for as long as its item does not refuse, and nothing in it says that this ends. It is
for the components: each inverse that gives something back makes the value smaller by one, down to a
floor, or to where its key is not bound. A choice between items of one size is such an item again,
and so is one behind a literal (`Reduction.Unwinds`).

Printing works under a bound, so that it ends means that it comes to an answer which no larger bound
changes (`Printed.Settles`). A join whose item unwinds settles as soon as the item has settled on
the values that the join passes (`Reduction.Unwinds.exists_undone`), and of these there are no more
than the size of the first.
-/

namespace Biparse

/-! ## Answers that no bound changes -/

/-- From some bound on the attempt comes to the answer. -/
def Printed.Settles {α : Type} (attempt : Nat → Printed α) (answer : Option α) : Prop :=
  ∃ n, ∀ bound, n ≤ bound → attempt bound = .ofOption answer

namespace Printed.Settles

variable {α β : Type} {attempt attempt' : Nat → Printed α} {answer answer' : Option α}

theorem const (answer : Option α) : Settles (fun _ => .ofOption answer) answer :=
  ⟨0, fun _ _ => rfl⟩

theorem orElse (h : Settles attempt answer) (h' : Settles attempt' answer') :
    Settles (fun bound => (attempt bound).orElse fun _ => attempt' bound) (answer.or answer') := by
  obtain ⟨n, hn⟩ := h
  obtain ⟨n', hn'⟩ := h'
  refine ⟨max n n', fun bound hbound => ?_⟩
  obtain ⟨hle, hle'⟩ := Nat.max_le.mp hbound
  simp only [hn bound hle, hn' bound hle', ofOption_orElse]

theorem bind (h : Settles attempt answer) {next : Nat → α → Printed β}
    (hnext : ∀ result, ∃ answer, Settles (next · result) answer) :
    ∃ answer, Settles (fun bound => attempt bound >>= next bound) answer := by
  obtain ⟨n, hn⟩ := h
  cases answer with
  | none =>
      refine ⟨none, n, fun bound hbound => ?_⟩
      simp only [hn bound hbound, ofOption_none, refused_bind]
  | some result =>
      obtain ⟨answer, n', hn'⟩ := hnext result
      refine ⟨answer, max n n', fun bound hbound => ?_⟩
      obtain ⟨hle, hle'⟩ := Nat.max_le.mp hbound
      simp only [hn bound hle, ofOption_some, done_bind, hn' bound hle']

end Printed.Settles

/-- Printing by the rule comes to an end, whatever the value. -/
def Rule.PrintingEnds {T : Type} (rule : Rule T) : Prop :=
  ∀ value, ∃ bound, rule.print bound value ≠ .unfinished

theorem Rule.PrintingEnds.settles {T : Type} {rule : Rule T} (h : rule.PrintingEnds) (value : T) :
    ∃ answer, Printed.Settles (rule.print · value) answer := by
  obtain ⟨n, hfinished⟩ := h value
  have hlarger : ∀ bound, n ≤ bound → rule.print bound value = rule.print n value :=
    fun _ hbound => Rule.print_of_le hbound hfinished
  cases hprint : rule.print n value with
  | done text => exact ⟨some text, n, fun bound hbound => (hlarger bound hbound).trans hprint⟩
  | refused => exact ⟨none, n, fun bound hbound => (hlarger bound hbound).trans hprint⟩
  | unfinished => exact absurd hprint hfinished

/-- Words are printed without looking at the bound. -/
theorem Rule.PrintsWords.printingEnds {T : Type} {rule : Rule T} {lead : String}
    {word? : T → Option Word} (h : rule.PrintsWords lead word?) : rule.PrintingEnds := by
  intro value
  refine ⟨0, ?_⟩
  rw [h 0 value]
  cases word? value <;> simp

/-! ## Items that make the value smaller -/

namespace Reduction

variable {T E : Type} {size : T → Nat} {item : Reduction T T}

/-- Undoing the item comes to an answer for every value, and where that is a value again, it is
smaller by one. -/
structure Unwinds (size : T → Nat) (item : Reduction T T) : Prop where
  size_of_print : ∀ {bound value left text}, item.print bound value = .done (left, text) →
    size left + 1 = size value
  settles : ∀ value, ∃ answer, Printed.Settles (item.print · value) answer

namespace Unwinds

theorem put {element : Rule E} {fold : Fold T E T} (hfold : Fold.Shrink size [fold])
    (helement : element.PrintingEnds) : (Reduction.put element fold).Unwinds size where
  size_of_print {bound value left text} hprint := by
    simp only [Reduction.print, Printed.bind_eq_done_iff, Printed.ofOption_eq_done_iff] at hprint
    obtain ⟨part, hright, before, hleft, partText, -, hresult⟩ := hprint
    obtain ⟨rfl, -⟩ : before = left ∧ partText = text := by simpa using hresult
    exact hfold fold (List.mem_singleton_self fold) value part before ⟨hleft, hright⟩
  settles value := by
    simp only [Reduction.print]
    exact (Printed.Settles.const _).bind fun part => (Printed.Settles.const _).bind fun left => by
      obtain ⟨answer, hanswer⟩ := helement.settles part
      exact hanswer.bind fun text => ⟨_, .const (some (left, text))⟩

theorem apply {mapping : Mapping T T}
    (hmapping : ∀ value left, mapping.backward value = some left → size left + 1 = size value) :
    (Reduction.apply mapping).Unwinds size where
  size_of_print {bound value left text} hprint := by
    simp only [Reduction.print, Printed.bind_eq_done_iff, Printed.ofOption_eq_done_iff] at hprint
    obtain ⟨before, hback, hresult⟩ := hprint
    obtain ⟨rfl, -⟩ : before = left ∧ [] = text := by simpa using hresult
    exact hmapping value before hback
  settles value := by
    simp only [Reduction.print]
    exact (Printed.Settles.const _).bind fun left => ⟨_, .const (some (left, []))⟩

theorem prefixed (h : item.Unwinds size) (literal : String) :
    (Reduction.prefixed literal item).Unwinds size where
  size_of_print {bound value left text} hprint := by
    simp only [Reduction.print, Printed.bind_eq_done_iff] at hprint
    obtain ⟨⟨before, innerText⟩, hinner, hresult⟩ := hprint
    obtain ⟨rfl, -⟩ : before = left ∧ literal.toList ++ innerText = text := by
      simpa using hresult
    exact h.size_of_print hinner
  settles value := by
    simp only [Reduction.print]
    obtain ⟨answer, hanswer⟩ := h.settles value
    exact hanswer.bind fun result => ⟨_, .const (some (result.1, literal.toList ++ result.2))⟩

theorem choice {first second : Reduction T T} (hfirst : first.Unwinds size)
    (hsecond : second.Unwinds size) (swapped : Bool) :
    (Reduction.choice swapped first second).Unwinds size where
  size_of_print {bound value left text} hprint := by
    rw [Reduction.print] at hprint
    cases swapped with
    | false =>
        rw [if_neg Bool.false_ne_true] at hprint
        exact (Printed.eq_done_of_orElse hprint).elim hfirst.size_of_print hsecond.size_of_print
    | true =>
        rw [if_pos rfl] at hprint
        exact (Printed.eq_done_of_orElse hprint).elim hsecond.size_of_print hfirst.size_of_print
  settles value := by
    obtain ⟨answer, hanswer⟩ := hfirst.settles value
    obtain ⟨answer', hanswer'⟩ := hsecond.settles value
    simp only [Reduction.print]
    cases swapped with
    | false => exact ⟨_, hanswer.orElse hanswer'⟩
    | true => exact ⟨_, hanswer'.orElse hanswer⟩

/-- Undoing for as long as it goes takes one step for each unit of size that the value loses. -/
theorem exists_undone (h : item.Unwinds size) (value : T) :
    ∃ texts left n, texts.length + size left = size value ∧ ∀ bound, n ≤ bound →
      Undone (fun value => item.print bound value) value texts left
        ∧ item.print bound left = .refused := by
  induction hn : size value using Nat.strong_induction_on generalizing value with
  | _ k ih =>
      obtain ⟨answer, n, hprint⟩ := h.settles value
      cases answer with
      | none =>
          exact ⟨[], value, n, by rw [List.length_nil, Nat.zero_add, hn], fun bound hbound =>
            ⟨.refused (hprint bound hbound), hprint bound hbound⟩⟩
      | some result =>
          obtain ⟨previous, text⟩ := result
          have hless : size previous + 1 = k := hn ▸ h.size_of_print (hprint n (Nat.le_refl n))
          obtain ⟨texts, left, n', hsize, hundone⟩ := ih _ (by omega) previous rfl
          refine ⟨texts ++ [text], left, max n n', ?_, fun bound hbound => ?_⟩
          · rw [List.length_append, List.length_singleton]
            omega
          · obtain ⟨hle, hle'⟩ := Nat.max_le.mp hbound
            obtain ⟨hbefore, hleft⟩ := hundone bound hle'
            exact ⟨.item (hprint bound hle) hbefore, hleft⟩

end Unwinds

end Reduction

/-! ## The components that do -/

/-- How far an integer is above another one, and nothing if it is not. -/
def Integer.above (lowest n : Int64) : Nat := (n.toInt - lowest.toInt).toNat

theorem Integer.above_of_increment {lowest floor n previous : Int64} (hfloor : lowest ≤ floor)
    (hback : (increment floor).backward n = some previous) :
    above lowest previous + 1 = above lowest n := by
  obtain ⟨hlt, hprevious⟩ := increment_backward_eq_some_iff.mp hback
  rw [Int64.le_iff_toInt_le] at hfloor
  rw [above, above]
  omega

/-- The items whose inverses decrease, each with the size that it takes one off. Appends take it off
the number of elements, puts off the number of entries, and counter steps off the distance from a
number that is not above their floor. -/
inductive Reduction.Decreasing : {T : Type} → (T → Nat) → Reduction T T → Prop
  | append {α : Type} {element : Rule α} (helement : element.PrintingEnds) (floor : Nat) :
    Decreasing Sequence.size (.put element (Sequence.appendFold α floor))
  | property {V : Type} {element : Rule V} (helement : element.PrintingEnds) (key : String) :
    Decreasing PropertyMap.size (.put element (PropertyMap.putFold V key))
  | keyed {K V : Type} [BEq K] {element : Rule V} (helement : element.PrintingEnds) (key : K) :
    Decreasing KeyedMap.size (.put element (KeyedMap.putFold K V key))
  | increment {lowest floor : Int64} (hfloor : lowest ≤ floor) :
    Decreasing (Integer.above lowest) (.apply (Integer.increment floor))
  | prefixed {T : Type} {size : T → Nat} {item : Reduction T T} (hitem : item.Decreasing size)
    (literal : String) : Decreasing size (.prefixed literal item)
  | choice {T : Type} {size : T → Nat} {first second : Reduction T T}
    (hfirst : first.Decreasing size) (hsecond : second.Decreasing size) (swapped : Bool) :
    Decreasing size (.choice swapped first second)

theorem Reduction.Decreasing.unwinds {T : Type} {size : T → Nat} {item : Reduction T T}
    (h : item.Decreasing size) : item.Unwinds size := by
  induction h with
  | append helement floor => exact .put Sequence.shrink_appendFold helement
  | property helement key => exact .put (PropertyMap.shrink_putFold [key]) helement
  | keyed helement key => exact .put (KeyedMap.shrink_putFold _ key) helement
  | increment hfloor => exact .apply fun _ _ => Integer.above_of_increment hfloor
  | prefixed _ literal ih => exact ih.prefixed literal
  | choice _ _ swapped ihfirst ihsecond => exact ihfirst.choice ihsecond swapped

/-- Printing a join of decreasing items comes to an end. From some bound on it has undone one item
for each unit of size that the value has lost, so no more than the value had; the item refuses what
is left; and the join prints the texts of the items with the separator between them. -/
theorem join_printing_ends {T : Type} {size : T → Nat} {item : Reduction T T}
    (h : item.Decreasing size) (separator : String) (value : T) :
    ∃ texts left n, texts.length + size left = size value ∧ ∀ bound, n ≤ bound →
      Undone (fun value => item.print bound value) value texts left
        ∧ item.print bound left = .refused
        ∧ (Reduction.join separator item).print bound value
          = .done (left, separator.toList.intercalate texts) := by
  obtain ⟨texts, left, n, hsize, hundone⟩ := h.unwinds.exists_undone value
  refine ⟨texts, left, max n (texts.length + 1), hsize, fun bound hbound => ?_⟩
  obtain ⟨hle, hfew⟩ := Nat.max_le.mp hbound
  obtain ⟨hitems, hleft⟩ := hundone bound hle
  refine ⟨hitems, hleft, ?_⟩
  rw [Reduction.print, undoItems_eq_of_undone hitems hfew [], List.append_nil]
  rfl

/-- What is bound to an integer is undone behind its sign. What is bound to a not-a-number is never
found again, and is left. -/
theorem join_printing_ends_nan :
    ∃ (item : Reduction (KeyedMap Elem String) (KeyedMap Elem String))
      (m : KeyedMap Elem String),
      item = .choice true (.prefixed "-" (.put .word (KeyedMap.putFold Elem String (.int 1))))
        (.put .word (KeyedMap.putFold Elem String (.float .nan)))
      ∧ m = .ofList [(.float .nan, "x"), (.int 1, "y")]
      ∧ item.Decreasing KeyedMap.size
      ∧ ∃ texts left n, texts.length + left.size = 2 ∧ left = .ofList [(.float .nan, "x")]
        ∧ ∀ bound, n ≤ bound → item.print bound left = .refused
          ∧ (Reduction.join "," item).print bound m
            = .done (left, ",".toList.intercalate texts) := by
  have hword : Rule.word.PrintingEnds := Rule.PrintsWords.word.printingEnds
  have hitem : (Reduction.choice true
      (.prefixed "-" (.put .word (KeyedMap.putFold Elem String (.int 1))))
      (.put .word (KeyedMap.putFold Elem String (.float .nan)))).Decreasing KeyedMap.size :=
    .choice (.prefixed (.keyed hword (Elem.int 1)) "-") (.keyed hword (Elem.float .nan)) true
  obtain ⟨texts, left, n, hsize, hprint⟩ :=
    join_printing_ends hitem "," (.ofList [(.float .nan, "x"), (.int 1, "y")])
  obtain ⟨-, -, hjoin⟩ := hprint (n + 3) (Nat.le_add_right n 3)
  have hleft : left = .ofList [(.float .nan, "x")] := by
    have hresult := hjoin.symm.trans
      (show _ = Printed.done (.ofList [(.float .nan, "x")], "-y".toList) from rfl)
    simp only [Printed.done.injEq, Prod.mk.injEq] at hresult
    exact hresult.1
  exact ⟨_, _, rfl, rfl, hitem, texts, left, n, hsize, hleft, fun bound hbound =>
    (hprint bound hbound).2⟩

end Biparse
