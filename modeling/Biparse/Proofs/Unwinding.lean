import Biparse.Component

/-!
# Taking folds back

A fold is taken back where neither of its inverses refuses: one yields the element, the other the
value from before it. Folds of a list can be taken back one after another, each time any that does
not refuse (`Fold.Unwound`), until all of them refuse (`Fold.Unwinds`).

Where taking back a fold makes a size smaller by one (`Fold.Shrink`), the number of steps is what
the size has lost, whichever folds were chosen, and every value can be unwound to the end.
-/

namespace Biparse.Fold

variable {L E : Type} {folds : List (Fold L E L)} {fold : Fold L E L} {value before left : L}
  {element : E} {elements : List E} {size : L → Nat}

/-- The fold has made the value of an element and the value before: neither inverse refuses. -/
def TakenBack (fold : Fold L E L) (value : L) (element : E) (before : L) : Prop :=
  fold.leftInverse value = some before ∧ fold.rightInverse value = some element

/-- Folds of the list have been taken back one after another. The element taken first is in
front. -/
inductive Unwound (folds : List (Fold L E L)) : L → List E → L → Prop
  | stop (value : L) : Unwound folds value [] value
  | step {fold : Fold L E L} {value before left : L} {element : E} {elements : List E}
    (hfold : fold ∈ folds) (hback : fold.TakenBack value element before)
    (hrest : Unwound folds before elements left) : Unwound folds value (element :: elements) left

/-- Every fold of the list refuses. -/
def Exhausted (folds : List (Fold L E L)) (value : L) : Prop :=
  ∀ fold ∈ folds, ∀ element before, ¬ fold.TakenBack value element before

/-- Folds of the list have been taken back until all of them refuse. -/
def Unwinds (folds : List (Fold L E L)) (value : L) (elements : List E) (left : L) : Prop :=
  Unwound folds value elements left ∧ Exhausted folds left

/-- Taking back any fold of the list makes the size smaller by one. -/
def Shrink (size : L → Nat) (folds : List (Fold L E L)) : Prop :=
  ∀ fold ∈ folds, ∀ value element before, fold.TakenBack value element before →
    size before + 1 = size value

theorem Unwound.length_add_size (hshrink : Shrink size folds)
    (h : Unwound folds value elements left) : elements.length + size left = size value := by
  induction h with
  | stop value => rw [List.length_nil, Nat.zero_add]
  | step hfold hback _ ih =>
      have hone := hshrink _ hfold _ _ _ hback
      rw [List.length_cons]
      omega

/-- Unwinding comes to an end. -/
theorem exists_unwinds (hshrink : Shrink size folds) (value : L) :
    ∃ elements left, Unwinds folds value elements left := by
  induction hn : size value generalizing value with
  | zero =>
      refine ⟨[], value, .stop value, fun fold hfold element before hback => ?_⟩
      have hone := hshrink fold hfold value element before hback
      omega
  | succ n ih =>
      by_cases hexhausted : Exhausted folds value
      · exact ⟨[], value, .stop value, hexhausted⟩
      · simp only [Exhausted, Classical.not_forall, Classical.not_not] at hexhausted
        obtain ⟨fold, hfold, element, before, hback⟩ := hexhausted
        have hone := hshrink fold hfold value element before hback
        obtain ⟨elements, left, hrun, hend⟩ := ih before (by omega)
        exact ⟨element :: elements, left, .step hfold hback hrun, hend⟩

/-- Putting the elements of a single fold back in, the one taken last first, gives the value they
were taken from. -/
theorem Unwound.refold {context : Span}
    (hforward : ∀ value element before, fold.TakenBack value element before →
      fold.forward context before element = value)
    (h : Unwound [fold] value elements left) :
    elements.foldr (fun element before => fold.forward context before element) left = value := by
  induction h with
  | stop value => rfl
  | step hfold hback _ ih =>
      obtain rfl := List.mem_singleton.mp hfold
      rw [List.foldr_cons, ih, hforward _ _ _ hback]

end Biparse.Fold
