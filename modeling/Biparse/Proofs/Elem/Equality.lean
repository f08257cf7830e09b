import Biparse.Elem.Basic

/-!
# Equality of elements

Elements are equal when they differ in nothing but the signs of zeros and no not-a-number stands
anywhere in them (`Elem.same_iff`). The two sides of that agree about not-a-numbers, so equality is
symmetric and transitive; it is not reflexive, for an element that holds a not-a-number equals
nothing.
-/

namespace Biparse

namespace FloatNumber

/-- The number without the sign of a zero. -/
def unsignedZero : FloatNumber → FloatNumber
  | .finite negative magnitude => .finite (negative && magnitude != 0) magnitude
  | x => x

theorem unsignedZero_eq_nan_iff {x : FloatNumber} : x.unsignedZero = .nan ↔ x = .nan := by
  cases x <;> simp [unsignedZero]

theorem same_iff {x y : FloatNumber} :
    same x y = true ↔ x ≠ .nan ∧ x.unsignedZero = y.unsignedZero := by
  cases x with
  | nan => simp [same]
  | infinite negative => cases y <;> simp [same, unsignedZero]
  | finite negative magnitude =>
      cases y with
      | finite negative' magnitude' =>
          simp only [same, unsignedZero, Bool.and_eq_true, Bool.or_eq_true, beq_iff_eq, finite.injEq,
            ne_eq, reduceCtorEq, not_false_eq_true, true_and]
          constructor
          · rintro ⟨rfl, rfl | rfl⟩ <;> simp
          · rintro ⟨hsign, rfl⟩
            refine ⟨rfl, Decidable.or_iff_not_imp_right.mpr fun hzero => ?_⟩
            rwa [bne_iff_ne.mpr hzero, Bool.and_true, Bool.and_true] at hsign
      | _ => simp [same, unsignedZero]

end FloatNumber

namespace Elem

/-- A not-a-number stands somewhere in the element. -/
inductive HoldsNaN : Elem → Prop
  | number : HoldsNaN (.float .nan)
  | item {x : Elem} {items : List Elem} (hmem : x ∈ items) (h : HoldsNaN x) : HoldsNaN (.list items)

mutual

/-- The element without the signs of its zeros, however deep they stand. -/
def unsignedZeros : Elem → Elem
  | .float value => .float value.unsignedZero
  | .list items => .list (unsignedZerosOfAll items)
  | x => x

/-- The items without the signs of their zeros. -/
def unsignedZerosOfAll : List Elem → List Elem
  | [] => []
  | x :: rest => x.unsignedZeros :: unsignedZerosOfAll rest

end

theorem holdsNaN_float_iff {value : FloatNumber} : HoldsNaN (.float value) ↔ value = .nan := by
  constructor
  · rintro ⟨⟩
    rfl
  · rintro rfl
    exact .number

theorem not_holdsNaN_list_iff {items : List Elem} :
    ¬ HoldsNaN (.list items) ↔ ∀ x ∈ items, ¬ HoldsNaN x := by
  constructor
  · exact fun hnot x hmem h => hnot (.item hmem h)
  · rintro hnot (_ | ⟨hmem, h⟩)
    exact hnot _ hmem h

mutual

theorem not_holdsNaN_unsignedZeros_iff : ∀ x : Elem, ¬ HoldsNaN x.unsignedZeros ↔ ¬ HoldsNaN x
  | .unit | .bool _ | .int _ | .text _ => Iff.rfl
  | .float value => by
      rw [unsignedZeros, holdsNaN_float_iff, holdsNaN_float_iff,
        FloatNumber.unsignedZero_eq_nan_iff]
  | .list items => by
      rw [unsignedZeros, not_holdsNaN_list_iff, not_holdsNaN_list_iff]
      exact not_holdsNaN_unsignedZerosOfAll_iff items

theorem not_holdsNaN_unsignedZerosOfAll_iff : ∀ items : List Elem,
    (∀ x ∈ unsignedZerosOfAll items, ¬ HoldsNaN x) ↔ ∀ x ∈ items, ¬ HoldsNaN x
  | [] => Iff.rfl
  | x :: rest => by
      rw [unsignedZerosOfAll, List.forall_mem_cons, List.forall_mem_cons,
        not_holdsNaN_unsignedZeros_iff x, not_holdsNaN_unsignedZerosOfAll_iff rest]

end

mutual

/-- Equal elements are alike up to the signs of zeros, and hold no not-a-number. -/
theorem same_iff : ∀ x y : Elem,
    same x y = true ↔ ¬ HoldsNaN x ∧ x.unsignedZeros = y.unsignedZeros
  | .unit, y | .bool _, y | .int _, y | .text _, y => by
      rw [and_iff_right (by nofun)]
      cases y <;> simp [same, unsignedZeros]
  | .float value, y => by
      rw [holdsNaN_float_iff]
      cases y with
      | float value' =>
          rw [unsignedZeros, unsignedZeros, float.injEq]
          exact FloatNumber.same_iff
      | _ => simp [same, unsignedZeros]
  | .list items, y => by
      rw [not_holdsNaN_list_iff]
      cases y with
      | list items' =>
          rw [unsignedZeros, unsignedZeros, list.injEq]
          exact sameItems_iff items items'
      | _ => simp [same, unsignedZeros]

theorem sameItems_iff : ∀ xs ys : List Elem, sameItems xs ys = true ↔
    (∀ x ∈ xs, ¬ HoldsNaN x) ∧ unsignedZerosOfAll xs = unsignedZerosOfAll ys
  | [], ys => by cases ys <;> simp [sameItems, unsignedZerosOfAll]
  | x :: xs, [] => by simp [sameItems, unsignedZerosOfAll]
  | x :: xs, y :: ys => by
      rw [sameItems, Bool.and_eq_true, same_iff x y, sameItems_iff xs ys, List.forall_mem_cons,
        unsignedZerosOfAll, unsignedZerosOfAll, List.cons.injEq, and_and_and_comm]

end

theorem same_symm {x y : Elem} (h : same x y = true) : same y x = true := by
  rw [same_iff] at h ⊢
  rw [← not_holdsNaN_unsignedZeros_iff, ← h.2, not_holdsNaN_unsignedZeros_iff]
  exact ⟨h.1, rfl⟩

theorem same_trans {x y z : Elem} (hxy : same x y = true) (hyz : same y z = true) :
    same x z = true := by
  rw [same_iff] at hxy hyz ⊢
  exact ⟨hxy.1, hxy.2.trans hyz.2⟩

instance : PartialEquivBEq Elem := ⟨same_symm, same_trans⟩

/-- An element equals itself unless a not-a-number stands somewhere in it. -/
theorem same_self_iff (x : Elem) : same x x = true ↔ ¬ HoldsNaN x := by
  rw [same_iff, and_iff_left rfl]

end Elem

end Biparse
