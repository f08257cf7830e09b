import Mathlib.Data.List.Basic

/-!
# Lists with a separator

A list is written as its elements with a separator between them. That is also what is behind an
element, only with a separator in front (`joined_cons`), so statements about such lists are about
both. When the text of an element ends visibly, whatever of the list is behind it, the elements can
be read off the whole (`joined_inj`).
-/

namespace Biparse

variable {E : Type}

/-- Elements with the separator between them, and one in front if these are not the first. -/
def joined (separator : List Char) (text : E → List Char) (first : Bool) (es : List E) :
    List Char :=
  if first then separator.intercalate (es.map text) else es.flatMap fun e => separator ++ text e

@[simp] theorem joined_nil (separator : List Char) (text : E → List Char) (first : Bool) :
    joined separator text first [] = [] := by
  cases first <;> rfl

theorem joined_cons (separator : List Char) (text : E → List Char) (first : Bool) (e : E)
    (es : List E) : joined separator text first (e :: es)
      = (if first then [] else separator) ++ (text e ++ joined separator text false es) := by
  cases first with
  | false => simp [joined]
  | true =>
      induction es generalizing e with
      | nil => simp [joined]
      | cons e' es ih =>
          have hnext := ih e'
          simp only [joined, if_true, List.map_cons, List.intercalate_cons_cons] at hnext ⊢
          simp [hnext]

/-- Without a separator, what is in front of every element may as well separate them. -/
theorem joined_nil_separator (lead : List Char) (text : E → List Char) (first : Bool)
    (es : List E) : joined [] (fun e => lead ++ text e) first es = joined lead text false es := by
  induction es generalizing first with
  | nil => simp
  | cons e es ih => simp [joined_cons, ih]

section Distinct

variable {separator : List Char} {text : E → List Char} {first : Bool} {es es' : List E}

theorem joined_eq_nil_iff (hne : ∀ e, text e ≠ []) :
    joined separator text first es = [] ↔ es = [] := by
  cases es with
  | nil => simp
  | cons e later => simp [joined_cons, hne e]

theorem joined_inj (hne : ∀ e, text e ≠ [])
    (hends : ∀ e e' later later',
      text e ++ joined separator text false later = text e' ++ joined separator text false later' →
        e = e' ∧ joined separator text false later = joined separator text false later')
    (h : joined separator text first es = joined separator text first es') : es = es' := by
  induction es generalizing first es' with
  | nil => exact ((joined_eq_nil_iff hne).mp (h.symm.trans (joined_nil ..))).symm
  | cons e later ih =>
      cases es' with
      | nil => exact absurd ((joined_eq_nil_iff hne).mp (h.trans (joined_nil ..))) nofun
      | cons e' later' =>
          rw [joined_cons, joined_cons] at h
          obtain ⟨rfl, hlater⟩ := hends e e' later later' (List.append_cancel_left h)
          rw [ih hlater]

end Distinct

end Biparse
