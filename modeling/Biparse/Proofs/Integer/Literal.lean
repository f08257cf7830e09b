import Biparse.Integer.Component
import Biparse.Proofs.Text.Decimal
import Mathlib.Data.List.TakeWhile

/-!
# Which texts are integer literals

What a text denotes is said for digits of any number (`Denotes`), and the range comes in only where
the reader does. The reader goes through the digits one by one and stops as soon as the value passes
the limit; since later digits never lower a value, that is the case exactly when the whole run of
digits passes it (`readDigits_eq`). So the limit can be compared with the run as a whole, and junk
after a run that is out of range does not matter.

Among the texts that denote an integer one is canonical, and it is the one printed
(`toString_eq_iff`).
-/

namespace Biparse.Integer

open Decimal

/-- One or more decimal digits. -/
def Digits (cs : List Char) : Prop := cs ≠ [] ∧ ∀ c ∈ cs, c.isDigit = true

/-- The number that digits denote. -/
def magnitude (digits : List Char) : Nat := Nat.ofDigitChars 10 digits 0

/-- A text of digits behind an optional sign, and the integer it denotes. -/
inductive Denotes (text : String) : Int → Prop
  | unsigned {digits : List Char} (htext : text.toList = digits) (h : Digits digits) :
    Denotes text (magnitude digits)
  | plus {digits : List Char} (htext : text.toList = '+' :: digits) (h : Digits digits) :
    Denotes text (magnitude digits)
  | minus {digits : List Char} (htext : text.toList = '-' :: digits) (h : Digits digits) :
    Denotes text (-magnitude digits)

/-- What comes after the sign, if there is one. -/
def body : List Char → List Char
  | '+' :: rest => rest
  | '-' :: rest => rest
  | cs => cs

/-- The digits right after the sign. -/
def digitRun (text : String) : List Char := (body text.toList).takeWhile Char.isDigit

/-- The range of the integers read. -/
def InRange (z : Int) : Prop := Int64.minValue.toInt ≤ z ∧ z ≤ Int64.maxValue.toInt

/-- Why a text is refused that is no literal in range. -/
def refusal (text : String) : Fault :=
  if text = "" then .empty
  else if text.toList.head? = some '-' then
    if -(magnitude (digitRun text) : Int) < Int64.minValue.toInt then .tooSmall else .invalidDigit
  else if Int64.maxValue.toInt < magnitude (digitRun text) then .tooLarge else .invalidDigit

/-- No plus sign, no zero in front of other digits, no minus sign in front of a mere zero. -/
structure Canonical (text : String) : Prop where
  no_plus : '+' ∉ text.toList
  no_leading_zero : ∀ c rest, body text.toList ≠ '0' :: c :: rest
  no_negative_zero : text ≠ "-0"

/-! ## Reading digits -/

section Digits

variable {limit value n : Nat} {passed e : Fault} {cs : List Char}

instance (cs : List Char) : Decidable (Digits cs) :=
  inferInstanceAs (Decidable (cs ≠ [] ∧ ∀ c ∈ cs, c.isDigit = true))

theorem Digits.takeWhile_eq (h : Digits cs) : cs.takeWhile Char.isDigit = cs :=
  List.takeWhile_eq_self_iff.mpr h.2

theorem digits_toDigits (n : Nat) : Digits (Nat.toDigits 10 n) :=
  ⟨Nat.toDigits_ne_nil, isDigit_of_mem_toDigits⟩

theorem magnitude_toDigits (n : Nat) : magnitude (Nat.toDigits 10 n) = n :=
  Nat.ofDigitChars_ten_toDigits

/-- The run is compared with the limit as a whole: where the value passes the limit on the way, the
run does so too. -/
theorem readDigits_eq (limit : Nat) (passed : Fault) {value : Nat} (h : value ≤ limit)
    (cs : List Char) :
    readDigits limit passed value cs
      = if limit < Nat.ofDigitChars 10 (cs.takeWhile Char.isDigit) value then .error passed
        else if cs.all Char.isDigit then .ok (Nat.ofDigitChars 10 cs value)
        else .error .invalidDigit := by
  induction cs generalizing value with
  | nil => simp [readDigits, Nat.not_lt.mpr h]
  | cons c rest ih =>
      rw [readDigits]
      by_cases hc : c.isDigit = true
      · have hnext : Nat.ofDigitChars 10 ((c :: rest).takeWhile Char.isDigit) value
            = Nat.ofDigitChars 10 (rest.takeWhile Char.isDigit) (value * 10 + (c.toNat - 48)) := by
          rw [List.takeWhile_cons_of_pos hc, Nat.ofDigitChars_cons, Nat.mul_comm]
          rfl
        have hvalue : Nat.ofDigitChars 10 (c :: rest) value
            = Nat.ofDigitChars 10 rest (value * 10 + (c.toNat - 48)) := by
          rw [Nat.ofDigitChars_cons, Nat.mul_comm]
          rfl
        simp only [hc, if_true, hnext, hvalue, List.all_cons, Bool.true_and]
        split
        · rename_i hpassed
          have hrun := le_ofDigitChars (value * 10 + (c.toNat - 48)) (rest.takeWhile Char.isDigit)
          rw [if_pos (Nat.lt_of_lt_of_le hpassed hrun)]
        · rename_i hwithin
          exact ih (Nat.not_lt.mp hwithin)
      · have hrun : (c :: rest).takeWhile Char.isDigit = [] := List.takeWhile_cons_of_neg hc
        simp [hc, hrun, Nat.not_lt.mpr h]

theorem readMagnitude_eq (limit : Nat) (passed : Fault) (cs : List Char) :
    readMagnitude limit passed cs
      = if limit < magnitude (cs.takeWhile Char.isDigit) then .error passed
        else if Digits cs then .ok (magnitude cs) else .error .invalidDigit := by
  cases cs with
  | nil => simp [readMagnitude, magnitude, Digits]
  | cons c rest =>
      rw [readMagnitude, readDigits_eq limit passed (Nat.zero_le limit)]
      · simp [magnitude, Digits]
      · simp

theorem readMagnitude_eq_ok_iff :
    readMagnitude limit passed cs = .ok n ↔ Digits cs ∧ magnitude cs = n ∧ n ≤ limit := by
  rw [readMagnitude_eq]
  constructor
  · intro h
    split at h
    · cases h
    · rename_i hwithin
      split at h
      · rename_i hdigits
        rw [hdigits.takeWhile_eq, Nat.not_lt] at hwithin
        obtain rfl := Except.ok.inj h
        exact ⟨hdigits, rfl, hwithin⟩
      · cases h
  · rintro ⟨hdigits, rfl, hwithin⟩
    rw [hdigits.takeWhile_eq, if_neg (Nat.not_lt.mpr hwithin), if_pos hdigits]

theorem readMagnitude_error (h : readMagnitude limit passed cs = .error e) :
    e = if limit < magnitude (cs.takeWhile Char.isDigit) then passed else .invalidDigit := by
  rw [readMagnitude_eq] at h
  split at h
  · rename_i hpassed
    rw [if_pos hpassed, Except.error.inj h]
  · rename_i hwithin
    rw [if_neg hwithin]
    split at h
    · cases h
    · exact (Except.error.inj h).symm

end Digits

/-! ## The range -/

theorem toInt_minValue : Int64.minValue.toInt = -0x8000000000000000 := rfl

theorem toInt_maxValue : Int64.maxValue.toInt = 0x7fffffffffffffff := rfl

theorem inRange_iff {z : Int} :
    InRange z ↔ -0x8000000000000000 ≤ z ∧ z ≤ 0x7fffffffffffffff := by
  rw [InRange, toInt_minValue, toInt_maxValue]

theorem inRange_toInt (n : Int64) : InRange n.toInt := by
  have hmin := n.le_toInt
  have hmax := n.toInt_lt
  rw [inRange_iff]
  omega

theorem toInt_ofInt_of_inRange {z : Int} (h : InRange z) : (Int64.ofInt z).toInt = z := by
  obtain ⟨hmin, hmax⟩ := inRange_iff.mp h
  exact Int64.toInt_ofInt_of_le (by omega) (by omega)

theorem negativeLimit_lt_iff {m : Nat} :
    negativeLimit < m ↔ -(m : Int) < Int64.minValue.toInt := by
  rw [negativeLimit, toInt_minValue]
  omega

theorem positiveLimit_lt_iff {m : Nat} : positiveLimit < m ↔ Int64.maxValue.toInt < m := by
  rw [positiveLimit, toInt_maxValue]
  omega

/-! ## Reading signs -/

section Signs

variable {text : String} {z : Int} {n : Int64} {cs : List Char} {e : Fault}

/-- Digits start with no sign. -/
theorem Digits.body_eq (h : Digits cs) : body cs = cs ∧ cs.head? ≠ some '-' := by
  obtain ⟨hne, hall⟩ := h
  cases cs with
  | nil => exact absurd rfl hne
  | cons c rest =>
      have hc : c.isDigit = true := hall c List.mem_cons_self
      have hplus : c ≠ '+' := by
        rintro rfl
        cases hc
      have hminus : c ≠ '-' := by
        rintro rfl
        cases hc
      refine ⟨body.eq_3 _ ?_ ?_, by simpa using hminus⟩
      · intro rest' heq
        exact hplus (List.cons.inj heq).1
      · intro rest' heq
        exact hminus (List.cons.inj heq).1

theorem denotes_iff :
    Denotes text z ↔ Digits (body text.toList)
      ∧ z = if text.toList.head? = some '-' then -(magnitude (body text.toList) : Int)
        else magnitude (body text.toList) := by
  constructor
  · intro h
    cases h with
    | unsigned htext h =>
        subst htext
        obtain ⟨hbody, hminus⟩ := h.body_eq
        rw [hbody, if_neg hminus]
        exact ⟨h, rfl⟩
    | plus htext h =>
        rw [htext]
        exact ⟨h, rfl⟩
    | minus htext h =>
        rw [htext]
        exact ⟨h, rfl⟩
  · rintro ⟨h, rfl⟩
    generalize htext : text.toList = cs at h
    revert h
    unfold body
    split
    · intro h
      exact .plus htext h
    · intro h
      exact .minus htext h
    · intro h
      rw [if_neg h.body_eq.2]
      exact .unsigned htext h

theorem parse_eq (text : String) :
    parse text = if text = "" then .error .empty
      else if text.toList.head? = some '-' then readNegative (body text.toList)
      else readPositive (body text.toList) := by
  by_cases hempty : text = ""
  · subst hempty
    rfl
  · rw [if_neg hempty, parse]
    split
    · rename_i hnil
      exact absurd (String.toList_eq_nil_iff.mp hnil) hempty
    · rename_i digits htext
      rw [htext]
      rfl
    · rename_i digits htext
      rw [htext]
      rfl
    · rename_i hminus hplus
      have hhead : text.toList.head? ≠ some '-' := by
        intro h
        obtain ⟨rest, hrest⟩ := List.head?_eq_some_iff.mp h
        exact hminus rest hrest
      rw [if_neg hhead, body.eq_3 _ hplus hminus]

/-- A limit on magnitudes that is the range on signed values. -/
theorem map_readMagnitude_eq_ok_iff (limit : Nat) (passed : Fault) (signed : Nat → Int)
    (hlimit : ∀ m, m ≤ limit ↔ InRange (signed m)) :
    (readMagnitude limit passed cs).map (fun m => Int64.ofInt (signed m)) = .ok n ↔
      Digits cs ∧ n.toInt = signed (magnitude cs) := by
  constructor
  · intro h
    cases hread : readMagnitude limit passed cs with
    | error e => simp [hread, Except.map] at h
    | ok m =>
        obtain ⟨hdigits, rfl, hle⟩ := readMagnitude_eq_ok_iff.mp hread
        rw [hread] at h
        rw [← Except.ok.inj h, toInt_ofInt_of_inRange ((hlimit _).mp hle)]
        exact ⟨hdigits, rfl⟩
  · rintro ⟨hdigits, hn⟩
    have hle : magnitude cs ≤ limit := (hlimit _).mpr (hn ▸ inRange_toInt n)
    have hread : readMagnitude limit passed cs = .ok (magnitude cs) :=
      readMagnitude_eq_ok_iff.mpr ⟨hdigits, rfl, hle⟩
    rw [hread, Except.map, ← hn, Int64.ofInt_toInt]

theorem readPositive_eq_ok_iff :
    readPositive cs = .ok n ↔ Digits cs ∧ n.toInt = magnitude cs := by
  unfold readPositive
  refine map_readMagnitude_eq_ok_iff positiveLimit .tooLarge (fun m => (m : Int)) ?_
  intro m
  rw [inRange_iff, positiveLimit]
  omega

theorem readNegative_eq_ok_iff :
    readNegative cs = .ok n ↔ Digits cs ∧ n.toInt = -(magnitude cs : Int) := by
  unfold readNegative
  refine map_readMagnitude_eq_ok_iff negativeLimit .tooSmall (fun m => -(m : Int)) ?_
  intro m
  rw [inRange_iff, negativeLimit]
  omega

theorem parse_eq_ok_iff : parse text = .ok n ↔ Denotes text n.toInt := by
  rw [parse_eq, denotes_iff]
  by_cases hempty : text = ""
  · subst hempty
    simp [body, Digits]
  · rw [if_neg hempty]
    split
    · exact readNegative_eq_ok_iff
    · exact readPositive_eq_ok_iff

theorem error_of_map {α β : Type} {f : α → β} {x : Except Fault α} (h : x.map f = .error e) :
    x = .error e := by
  cases x with
  | ok value => cases h
  | error failure => rw [Except.error.inj h]

theorem eq_refusal_of_parse (h : parse text = .error e) : e = refusal text := by
  rw [parse_eq] at h
  simp only [refusal, ← negativeLimit_lt_iff, ← positiveLimit_lt_iff]
  split
  · rename_i hempty
    rw [if_pos hempty] at h
    exact (Except.error.inj h).symm
  · rename_i hempty
    rw [if_neg hempty] at h
    split
    · rename_i hminus
      rw [if_pos hminus, readNegative] at h
      exact readMagnitude_error (error_of_map h)
    · rename_i hminus
      rw [if_neg hminus, readPositive] at h
      exact readMagnitude_error (error_of_map h)

end Signs

/-! ## Printing -/

theorem denotes_toString (z : Int) : Denotes (toString z) z := by
  cases z with
  | ofNat n =>
      have h := Denotes.unsigned (toList_toString_ofNat n) (digits_toDigits n)
      rwa [magnitude_toDigits] at h
  | negSucc n =>
      have h := Denotes.minus (toList_toString_negSucc n) (digits_toDigits (n + 1))
      rwa [magnitude_toDigits] at h

/-- Digits without a zero in front are those of their number. -/
theorem Digits.eq_toDigits {digits : List Char} (h : Digits digits)
    (hzero : ∀ c rest, digits ≠ '0' :: c :: rest) : digits = Nat.toDigits 10 (magnitude digits) := by
  by_cases hhead : digits.head? = some '0'
  · obtain ⟨rest, rfl⟩ := List.head?_eq_some_iff.mp hhead
    cases rest with
    | nil => rfl
    | cons c rest => exact absurd rfl (hzero c rest)
  · exact (toDigits_ofDigitChars h.1 h.2 hhead).2.symm

theorem toDigits_ne_cons_zero (n : Nat) (c : Char) (rest : List Char) :
    Nat.toDigits 10 n ≠ '0' :: c :: rest := by
  intro h
  have hzero : n = 0 := (head?_toDigits_eq_zero_iff n).mp (h ▸ rfl)
  rw [hzero, Nat.toDigits_zero] at h
  cases h

theorem canonical_toString (z : Int) : Canonical (toString z) := by
  have hplus : ∀ n, '+' ∉ Nat.toDigits 10 n := by
    intro n hmem
    cases isDigit_of_mem_toDigits '+' hmem
  cases z with
  | ofNat n =>
      have hlist := toList_toString_ofNat n
      refine ⟨hlist ▸ hplus n, ?_, ?_⟩
      · intro c rest
        rw [hlist, (digits_toDigits n).body_eq.1]
        exact toDigits_ne_cons_zero n c rest
      · intro h
        rw [h] at hlist
        exact (digits_toDigits n).body_eq.2 (hlist ▸ rfl)
  | negSucc n =>
      have hlist := toList_toString_negSucc n
      refine ⟨?_, ?_, ?_⟩
      · rw [hlist, List.mem_cons, not_or]
        exact ⟨by decide, hplus (n + 1)⟩
      · intro c rest
        rw [hlist]
        exact toDigits_ne_cons_zero (n + 1) c rest
      · intro h
        rw [h] at hlist
        have hdigits := (List.cons.inj hlist).2
        have hzero : n + 1 = 0 := (head?_toDigits_eq_zero_iff (n + 1)).mp (hdigits ▸ rfl)
        cases hzero

/-- The canonical text of an integer is the one that is printed. -/
theorem toString_eq_iff {text : String} {z : Int} :
    toString z = text ↔ Canonical text ∧ Denotes text z := by
  constructor
  · rintro rfl
    exact ⟨canonical_toString z, denotes_toString z⟩
  · rintro ⟨hcanonical, hdenotes⟩
    apply String.toList_inj.mp
    cases hdenotes with
    | unsigned htext h =>
        subst htext
        have hzero := hcanonical.no_leading_zero
        rw [h.body_eq.1] at hzero
        exact (toList_toString_ofNat _).trans (h.eq_toDigits hzero).symm
    | plus htext h =>
        refine absurd ?_ hcanonical.no_plus
        rw [htext]
        exact List.mem_cons_self
    | @minus digits htext h =>
        have hzero := hcanonical.no_leading_zero
        rw [htext] at hzero
        have hdigits := h.eq_toDigits hzero
        cases hm : magnitude digits with
        | zero =>
            rw [hm, Nat.toDigits_zero] at hdigits
            refine absurd (String.toList_inj.mp ?_) hcanonical.no_negative_zero
            rw [htext, hdigits]
            rfl
        | succ n =>
            rw [hm] at hdigits
            rw [htext, hdigits]
            exact toList_toString_negSucc n

/-- Integer literals. A text is accepted exactly when it denotes an integer in range, which is then
the value. What is printed is accepted with the value it was printed for, and is the one canonical
text that denotes it. A refusal carries the text as it was, with the reason: that it is empty, that
the digits after the sign are out of range whatever comes after them, or else an invalid digit. -/
theorem literals_exact_and_canonical (context : Span) :
    (∀ text n, literal.forward context text = .ok n ↔ Denotes text n.toInt)
    ∧ (∀ text, (∃ n, literal.forward context text = .ok n) ↔
      ∃ z, Denotes text z ∧ InRange z)
    ∧ (∀ n, ∃ text, literal.backward n = some text ∧ literal.forward context text = .ok n)
    ∧ (∀ n text, literal.backward n = some text ↔ Canonical text ∧ Denotes text n.toInt)
    ∧ ∀ text e, literal.forward context text = .error e ↔
      (∀ n, literal.forward context text ≠ .ok n) ∧ e = .format ⟨text, refusal text⟩ := by
  have hforward : ∀ text n, literal.forward context text = .ok n ↔ Denotes text n.toInt :=
    fun text n => mapError_eq_ok_iff.trans parse_eq_ok_iff
  have hbackward : ∀ n text, literal.backward n = some text ↔
      Canonical text ∧ Denotes text n.toInt := by
    intro n text
    rw [← toString_eq_iff]
    exact Option.some_inj
  refine ⟨hforward, ?_, ?_, hbackward, ?_⟩
  · intro text
    constructor
    · rintro ⟨n, hn⟩
      exact ⟨n.toInt, (hforward text n).mp hn, inRange_toInt n⟩
    · rintro ⟨z, hz, hrange⟩
      refine ⟨Int64.ofInt z, (hforward text _).mpr ?_⟩
      rwa [toInt_ofInt_of_inRange hrange]
  · intro n
    exact ⟨print n, rfl, (hforward _ n).mpr (denotes_toString n.toInt)⟩
  · intro text e
    cases hparse : parse text with
    | ok n =>
        have hok : literal.forward context text = .ok n := mapError_eq_ok_iff.mpr hparse
        simp [hok]
    | error reason =>
        have herror : literal.forward context text = .error (.format ⟨text, reason⟩) := by
          simp only [literal, hparse]
          rfl
        rw [herror, ← eq_refusal_of_parse hparse]
        simp [eq_comm]

end Biparse.Integer
