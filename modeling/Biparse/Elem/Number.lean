/-!
# Floating-point elements

The floating-point numbers that elements are made of are the binary ones of 64 bits: not-a-number,
the infinities, and finite magnitudes with a sign. They compare the way floating-point numbers do:
not-a-number equals nothing, itself included, and the two zeros are equal although they are written
apart.

Finite magnitudes are numbered in increasing order from zero on (`Magnitude`). They are written with
the fewest decimal digits that read back as the magnitude, which are looked for place by place, from
coarse to fine (`Magnitude.shortest`). All comparisons are made on whole numbers. The magnitude
itself is a decimal, so in the end there is one that reads back (`Magnitude.readsBack_shortest`).
-/

namespace Biparse

/-! ## Magnitudes -/

/-- How many fractions there are for an exponent: they have 52 bits. -/
def fractionCount : Nat := Nat.pow 2 52

/-- How many finite magnitudes there are: 2047 exponents, each with all fractions. -/
def magnitudeCount : Nat := 2047 * fractionCount

theorem magnitudeCount_pos : 0 < magnitudeCount :=
  Nat.mul_pos (by decide) (Nat.pow_pos (by decide))

/-- A finite magnitude, by its number. The exponent stands in the upper part of that number, and the
fraction in its lower part. -/
abbrev Magnitude := Fin magnitudeCount

instance : OfNat Magnitude 0 := ⟨⟨0, magnitudeCount_pos⟩⟩

/-- A whole number of units of a decimal place. -/
structure Decimal where
  units : Nat
  place : Int

namespace Magnitude

/-- The digits of a magnitude, which is `significand * 2 ^ exponent`. -/
def significand (m : Magnitude) : Nat :=
  if m.val < fractionCount then m.val else fractionCount + m.val % fractionCount

/-- The last binary place of a magnitude. -/
def exponent (m : Magnitude) : Int := (max 1 (m.val / fractionCount) : Nat) - 1075

/-- Half the distance to the next smaller magnitude, in quarters of the last binary place. Below a
power of two the magnitudes lie twice as close, but for the least exponents. -/
def marginBelow (m : Magnitude) : Nat :=
  if m.val % fractionCount = 0 && fractionCount < m.val then 1 else 2

/-- What a unit of a decimal place and a quarter of the last binary place come to in one measure, in
which both are whole. -/
def measures (m : Magnitude) (place : Int) : Nat × Nat :=
  (Nat.pow 10 place.toNat * Nat.pow 2 (2 - m.exponent).toNat,
    Nat.pow 2 (m.exponent - 2).toNat * Nat.pow 10 (-place).toNat)

/-- Whether a decimal is nearer to the magnitude than to any other one. Halfway between two of them
the even one is taken. -/
def readsBack (m : Magnitude) (d : Decimal) : Bool :=
  let (unit, quarter) := m.measures d.place
  let low := (4 * m.significand - m.marginBelow) * quarter
  let high := (4 * m.significand + 2) * quarter
  if m.significand % 2 = 0 then low ≤ d.units * unit && d.units * unit ≤ high
  else low < d.units * unit && d.units * unit < high

/-- The decimal of a place that reads back, if there is one. If there are several it is the nearest
one, and of two at the same distance the greater. -/
def atPlace? (m : Magnitude) (place : Int) : Option Decimal :=
  let (unit, quarter) := m.measures place
  let exact := 4 * m.significand * quarter
  let below : Decimal := ⟨exact / unit, place⟩
  let above : Decimal := ⟨exact / unit + 1, place⟩
  match m.readsBack below, m.readsBack above with
  | true, true => if exact % unit < unit - exact % unit then some below else some above
  | true, false => some below
  | false, true => some above
  | false, false => none

/-- The magnitude itself as a decimal: every binary place is a whole number of units of the decimal
place of the same number. -/
def exactly (m : Magnitude) : Decimal :=
  let (unit, quarter) := m.measures (-1076)
  ⟨4 * m.significand * quarter / unit, -1076⟩

/-- The decimal of the fewest digits that reads back as the magnitude. -/
def shortest (m : Magnitude) : Decimal :=
  let places := (List.range 640).map fun (i : Nat) => (310 - i : Int)
  (places.findSome? m.atPlace?).getD m.exactly

/-! ### What is written reads back -/

variable {m : Magnitude}

theorem readsBack_of_atPlace? {place : Int} {d : Decimal} (h : m.atPlace? place = some d) :
    m.readsBack d = true := by
  simp only [atPlace?] at h
  split at h
  · split at h
    · rwa [← Option.some.inj h]
    · rwa [← Option.some.inj h]
  · rwa [← Option.some.inj h]
  · rwa [← Option.some.inj h]
  · cases h

theorem two_pow_dvd_ten_pow {a b : Nat} (h : a ≤ b) : Nat.pow 2 a ∣ Nat.pow 10 b :=
  Nat.dvd_trans (Nat.pow_dvd_pow 2 h) ⟨Nat.pow 5 b, Nat.mul_pow 2 5 b⟩

/-- Where a place is fine enough, a quarter of the last binary place is a whole number of units. -/
theorem measures_dvd {place : Int} (hplace : 2 - m.exponent ≤ -place) (hfine : place ≤ 0) :
    (m.measures place).1 ∣ (m.measures place).2 := by
  have hunit : place.toNat = 0 := by omega
  have hle : (2 - m.exponent).toNat ≤ (-place).toNat := by omega
  rw [measures, hunit, show Nat.pow 10 0 = 1 from rfl, Nat.one_mul]
  exact Nat.dvd_mul_left_of_dvd (two_pow_dvd_ten_pow hle) _

theorem measures_pos (m : Magnitude) (place : Int) : 0 < (m.measures place).2 :=
  Nat.mul_pos (Nat.pow_pos (by decide)) (Nat.pow_pos (by decide))

theorem readsBack_exactly (m : Magnitude) : m.readsBack m.exactly = true := by
  have hfine : 2 - m.exponent ≤ 1076 := by
    unfold exponent
    omega
  have hwhole : (m.measures (-1076)).1 ∣ (m.measures (-1076)).2 :=
    measures_dvd hfine (by decide)
  have hquarter := m.measures_pos (-1076)
  have hexact : m.exactly.units * (m.measures (-1076)).1
      = 4 * m.significand * (m.measures (-1076)).2 :=
    Nat.div_mul_cancel (Nat.dvd_mul_left_of_dvd hwhole _)
  have hmargin : 0 < m.marginBelow := by
    unfold marginBelow
    split <;> decide
  have hplace : m.exactly.place = -1076 := rfl
  simp only [readsBack, hplace, hexact]
  split
  · simp only [Bool.and_eq_true, decide_eq_true_eq]
    exact ⟨Nat.mul_le_mul_right _ (Nat.sub_le _ _), Nat.mul_le_mul_right _ (Nat.le_add_right _ _)⟩
  · simp only [Bool.and_eq_true, decide_eq_true_eq]
    exact ⟨Nat.mul_lt_mul_of_pos_right (by omega) hquarter,
      Nat.mul_lt_mul_of_pos_right (by omega) hquarter⟩

/-- The decimal that is written reads back as the magnitude. -/
theorem readsBack_shortest (m : Magnitude) : m.readsBack m.shortest = true := by
  simp only [shortest]
  generalize (List.range 640).map (fun (i : Nat) => (310 - i : Int)) = places
  cases hfound : places.findSome? m.atPlace? with
  | none => exact m.readsBack_exactly
  | some d =>
    obtain ⟨place, -, hd⟩ := List.exists_of_findSome?_eq_some hfound
    exact readsBack_of_atPlace? hd

end Magnitude

namespace Decimal

/-- The digits with a point in them: `point` digits stand before it. There is at least one digit on
either side. -/
def plain (digits : List Char) (point : Int) : List Char :=
  let whole := digits.take point.toNat ++ List.replicate (point - digits.length).toNat '0'
  let places := List.replicate (-point).toNat '0' ++ digits.drop point.toNat
  (if whole.isEmpty then ['0'] else whole) ++ '.' :: (if places.isEmpty then ['0'] else places)

/-- The digits with a point behind the first one, and the power of ten that this one counts. -/
def scientific (digits : List Char) (point : Int) : List Char :=
  digits.take 1 ++ (if digits.length ≤ 1 then [] else '.' :: digits.drop 1)
    ++ 'e' :: (toString (point - 1)).toList

/-- The written form: with a power of ten if the first digit stands for less than a ten-thousandth,
or for as much as ten to the sixteenth. -/
def print (d : Decimal) : String :=
  let digits := Nat.toDigits 10 d.units
  let point := digits.length + d.place
  String.ofList (if -4 < point && point ≤ 16 then plain digits point else scientific digits point)

end Decimal

/-! ## Numbers -/

/-- A floating-point number. -/
inductive FloatNumber where
  | nan
  | infinite (negative : Bool)
  | finite (negative : Bool) (magnitude : Magnitude)
deriving Repr

namespace FloatNumber

/-- Floating-point equality. -/
def same : FloatNumber → FloatNumber → Bool
  | .infinite a, .infinite b => a == b
  | .finite a m, .finite b n => m == n && (a == b || m == 0)
  | _, _ => false

instance : BEq FloatNumber := ⟨same⟩

/-- The written form. -/
def print : FloatNumber → String
  | .nan => "NaN"
  | .infinite negative => if negative then "-inf" else "inf"
  | .finite negative m =>
    (if negative then "-" else "") ++ if m = 0 then "0.0" else m.shortest.print

end FloatNumber

end Biparse
