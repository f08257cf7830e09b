import Mathlib.Data.List.Basic
import Mathlib.Data.List.Induction

/-!
# Decimal digits

Natural numbers and runs of decimal digits: the digits of a number, and the number that digits
denote. Digits without a leading zero are the digits of the number they denote
(`toDigits_ofDigitChars`), so of all runs that denote a number there is one that starts with no zero
it could do without.
-/

namespace Biparse.Decimal

/-! ## The digits of a number -/

/-- Only zero is written with a leading zero. -/
theorem head?_toDigits_eq_zero_iff (n : Nat) : (Nat.toDigits 10 n).head? = some '0' ↔ n = 0 := by
  -- The digits of `n / 10` come first, so they decide about the head.
  induction n using Nat.strongRecOn with
  | ind n ih =>
      rw [Nat.toDigits_eq_if (by decide)]
      split
      · rw [List.head?_cons, Option.some.injEq, Nat.digitChar_eq_zero]
      · rw [List.head?_append_of_ne_nil _ Nat.toDigits_ne_nil, ih (n / 10) (by omega)]
        omega

theorem isDigit_of_mem_toDigits {n : Nat} : ∀ c ∈ Nat.toDigits 10 n, c.isDigit = true :=
  fun _ => Nat.isDigit_of_mem_toDigits (by decide) (by decide)

theorem exists_toDigits_eq_cons (n : Nat) :
    ∃ c digits, Nat.toDigits 10 n = c :: digits ∧ c.isDigit = true := by
  cases h : Nat.toDigits 10 n with
  | nil => exact absurd h Nat.toDigits_ne_nil
  | cons c digits =>
      exact ⟨c, digits, rfl, isDigit_of_mem_toDigits (n := n) c (h ▸ List.mem_cons_self)⟩

theorem toDigits_inj {n m : Nat} : Nat.toDigits 10 n = Nat.toDigits 10 m ↔ n = m := by
  refine ⟨fun h => ?_, congrArg _⟩
  calc
    n = Nat.ofDigitChars 10 (Nat.toDigits 10 n) 0 := Nat.ofDigitChars_ten_toDigits.symm
    _ = Nat.ofDigitChars 10 (Nat.toDigits 10 m) 0 := by rw [h]
    _ = m := Nat.ofDigitChars_ten_toDigits

theorem toString_inj {n m : Nat} : toString n = toString m ↔ n = m := by
  rw [Nat.toString_eq_ofList_toDigits, Nat.toString_eq_ofList_toDigits, String.ofList_inj,
    toDigits_inj]

/-- A number in front of something else than digits can be read off. -/
theorem toDigits_append_inj {n m : Nat} {rest rest' : List Char}
    (hrest : ∀ c ∈ rest.head?, c.isDigit = false) (hrest' : ∀ c ∈ rest'.head?, c.isDigit = false)
    (h : Nat.toDigits 10 n ++ rest = Nat.toDigits 10 m ++ rest') : n = m ∧ rest = rest' := by
  have hcut : ∀ (n : Nat) (rest : List Char), (∀ c ∈ rest.head?, c.isDigit = false) →
      (Nat.toDigits 10 n ++ rest).takeWhile Char.isDigit = Nat.toDigits 10 n := by
    intro n rest hrest
    rw [List.takeWhile_append_of_pos isDigit_of_mem_toDigits]
    cases rest with
    | nil => simp
    | cons c rest => simp [hrest c rfl]
  have hdigits : Nat.toDigits 10 n = Nat.toDigits 10 m := by
    rw [← hcut n rest hrest, h, hcut m rest' hrest']
  rw [hdigits] at h
  exact ⟨toDigits_inj.mp hdigits, List.append_cancel_left h⟩

theorem toList_toString_ofNat (n : Nat) : (toString (Int.ofNat n)).toList = Nat.toDigits 10 n := by
  have hnat : toString (Int.ofNat n) = toString n := rfl
  rw [hnat, Nat.toString_eq_ofList_toDigits, String.toList_ofList]

theorem toList_toString_negSucc (n : Nat) :
    (toString (Int.negSucc n)).toList = '-' :: Nat.toDigits 10 (n + 1) := by
  have hnat : toString (Int.negSucc n) = "-" ++ toString (n + 1) := rfl
  rw [hnat, String.toList_append, Nat.toString_eq_ofList_toDigits]
  exact congrArg ('-' :: ·) String.toList_ofList

/-! ## The number that digits denote -/

/-- Digits that come after a value never lower it. -/
theorem le_ofDigitChars (value : Nat) (digits : List Char) :
    value ≤ Nat.ofDigitChars 10 digits value := by
  induction digits generalizing value with
  | nil => exact Nat.le_refl value
  | cons c digits ih =>
      rw [Nat.ofDigitChars_cons]
      exact Nat.le_trans (by omega) (ih _)

theorem digitChar_of_isDigit {c : Char} (h : c.isDigit = true) :
    c.toNat - 48 < 10 ∧ Nat.digitChar (c.toNat - 48) = c := by
  simp only [Char.isDigit_iff_toNat, Char.reduceToNat] at h
  have hlt : c.toNat - 48 < 10 := by omega
  refine ⟨hlt, Char.toNat_inj.mp ?_⟩
  rw [Nat.toNat_digitChar_of_lt_ten hlt]
  omega

/-- Induction at the end of the digits, where the number grows by a place: what comes before the
last digit is a number of its own, and not zero. -/
theorem toDigits_ofDigitChars {digits : List Char} (hne : digits ≠ [])
    (hall : ∀ c ∈ digits, c.isDigit = true) (hhead : digits.head? ≠ some '0') :
    0 < Nat.ofDigitChars 10 digits 0 ∧ Nat.toDigits 10 (Nat.ofDigitChars 10 digits 0) = digits := by
  induction digits using List.reverseRecOn with
  | nil => exact absurd rfl hne
  | append_singleton front c ih =>
      obtain ⟨hlt, hc⟩ := digitChar_of_isDigit (hall c (by simp))
      have hlast : Nat.toDigits 10 (c.toNat - 48) = [c] := by
        rw [Nat.toDigits_of_lt_base hlt, hc]
      by_cases hfront : front = []
      · subst hfront
        have hvalue : Nat.ofDigitChars 10 [c] 0 = c.toNat - 48 := Nat.zero_add _
        have hzero : c.toNat - 48 ≠ 0 := by
          intro hzero
          rw [hzero] at hc
          exact hhead (hc ▸ rfl)
        rw [List.nil_append, hvalue]
        exact ⟨Nat.pos_of_ne_zero hzero, hlast⟩
      · rw [List.head?_append_of_ne_nil _ hfront] at hhead
        obtain ⟨hpos, hdigits⟩ := ih hfront (fun d hd => hall d (by simp [hd])) hhead
        have hvalue : Nat.ofDigitChars 10 (front ++ [c]) 0
            = 10 * Nat.ofDigitChars 10 front 0 + (c.toNat - 48) := Nat.ofDigitChars_append 0
        rw [hvalue, ← Nat.toDigits_append_toDigits (by decide) hpos hlt, hdigits, hlast]
        exact ⟨by omega, rfl⟩

end Biparse.Decimal
