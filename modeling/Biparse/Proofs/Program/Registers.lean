import Biparse.Program.Basic
import Mathlib.Data.List.Forall2

/-!
# Registers beside an account of them

A run can be followed by an account that has an entry for every register. What an action comes to is
then foreseen from the entries of the registers it names: nothing for an answer, and an entry for a
register it makes. Whatever an entry says of its register, and whatever is meant by foreseeing an
effect, naming registers goes through here.
-/

namespace Biparse.Program

variable {R B O : Type} {Fits : R → O → Prop} {Foreseen : Effect R B → Option O → Prop}
  {made : List O} {i : Nat}

theorem fits_of_getElem? {held : List R} {register : R} {entry : O}
    (hfits : List.Forall₂ Fits held made) (hregister : held[i]? = some register)
    (hentry : made[i]? = some entry) : Fits register entry := by
  obtain ⟨hi, rfl⟩ := List.getElem?_eq_some_iff.mp hregister
  obtain ⟨hi', rfl⟩ := List.getElem?_eq_some_iff.mp hentry
  exact hfits.get hi hi'

theorem exists_fits_of_getElem? {held : List R} {register : R}
    (hfits : List.Forall₂ Fits held made) (hregister : held[i]? = some register) :
    ∃ entry, made[i]? = some entry ∧ Fits register entry := by
  have hi : i < made.length := hfits.length_eq ▸ (List.getElem?_eq_some_iff.mp hregister).1
  have hentry : made[i]? = some made[i] := List.getElem?_eq_getElem hi
  exact ⟨made[i], hentry, fits_of_getElem? hfits hregister hentry⟩

namespace Bench

variable {bench : Bench R} {complaint : B} {effect : R → Effect R B}

/-- An effect on a register is foreseen from its entry. -/
theorem foreseen_withRegister {foresee : O → Option O}
    (hfits : List.Forall₂ Fits bench.registers made) (hanswer : Foreseen (.answer complaint) none)
    (heffect : ∀ register entry, Fits register entry → Foreseen (effect register) (foresee entry)) :
    Foreseen (bench.withRegister i complaint effect) (made[i]?.bind foresee) := by
  rw [withRegister]
  cases hregister : bench.registers[i]? with
  | none =>
      have hnone : made[i]? = none := by
        rw [List.getElem?_eq_none_iff] at hregister ⊢
        rwa [← hfits.length_eq]
      rw [hnone]
      exact hanswer
  | some register =>
      obtain ⟨entry, hentry, hfit⟩ := exists_fits_of_getElem? hfits hregister
      rw [hentry]
      exact heffect register entry hfit

/-- A question about a register is answered whatever the register is. -/
theorem foreseen_question (hanswer : Foreseen (.answer complaint) none)
    (heffect : ∀ register, Foreseen (effect register) none) :
    Foreseen (bench.withRegister i complaint effect) none := by
  rw [withRegister]
  split
  · exact heffect _
  · exact hanswer

end Bench

end Biparse.Program
