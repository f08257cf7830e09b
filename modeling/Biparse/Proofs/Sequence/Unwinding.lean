import Biparse.Proofs.Sequence.Refinement
import Biparse.Proofs.Unwinding

/-!
# Appends are taken back down to a floor

An append with a floor is taken back from sequences longer than the floor and from no others
(`takenBack_appendFold_iff`). So what is left of a sequence in the end is the prefix of as many
elements as the floor allows, and the elements taken off are the rest of it, the last one first
(`append_unwinds_to_floor`).
-/

namespace Biparse.Sequence

variable {α : Type} {floor : Nat} {s p rest : Sequence α} {x : α} {taken : List α}

/-! ## One append -/

theorem size_push (s : Sequence α) (x : α) : (s.push x).size = s.size + 1 := rfl

theorem splitAbove?_eq_some_iff :
    s.splitAbove? floor = some (p, x) ↔ floor < s.size ∧ p.push x = s := by
  rw [splitAbove?, eq_comm (b := s), ← splitLast?_eq_some_iff, Option.ite_none_left_eq_some,
    Nat.not_le]

theorem exists_push (h : 0 < s.size) : ∃ p x, push p x = s := by
  induction s using push_induction with
  | empty => exact absurd h (Nat.lt_irrefl 0)
  | push p x _ => exact ⟨p, x, rfl⟩

theorem isSome_splitAbove?_iff : (s.splitAbove? floor).isSome ↔ floor < s.size := by
  simp only [Option.isSome_iff_exists, Prod.exists, splitAbove?_eq_some_iff, exists_and_left]
  exact and_iff_left_of_imp fun hfloor => exists_push (Nat.zero_lt_of_lt hfloor)

theorem isSome_leftInverse_appendFold_iff :
    ((appendFold α floor).leftInverse s).isSome ↔ floor < s.size := by
  rw [appendFold, Option.isSome_map, isSome_splitAbove?_iff]

theorem isSome_rightInverse_appendFold_iff :
    ((appendFold α floor).rightInverse s).isSome ↔ floor < s.size := by
  rw [appendFold, Option.isSome_map, isSome_splitAbove?_iff]

theorem takenBack_appendFold_iff :
    (appendFold α floor).TakenBack s x p ↔ floor < s.size ∧ p.push x = s := by
  rw [← splitAbove?_eq_some_iff]
  simp only [Fold.TakenBack, appendFold]
  cases s.splitAbove? floor with
  | none => simp
  | some split => simp [Prod.ext_iff]

/-- What has just been appended is taken back, unless that would go below the floor. -/
theorem splitAbove?_push :
    (s.push x).splitAbove? floor = if floor ≤ s.size then some (s, x) else none := by
  rw [splitAbove?, splitLast?_push, size_push]
  by_cases h : floor ≤ s.size
  · rw [if_pos h, if_neg (Nat.not_le_of_lt (Nat.lt_succ_of_le h))]
  · rw [if_neg h, if_pos (Nat.succ_le_of_lt (Nat.lt_of_not_le h))]

theorem leftInverse_push_iff :
    (appendFold α floor).leftInverse (s.push x) = some s ↔ floor ≤ s.size := by
  simp only [appendFold, splitAbove?_push]
  split <;> simp [*]

theorem rightInverse_push_iff :
    (appendFold α floor).rightInverse (s.push x) = some x ↔ floor ≤ s.size := by
  simp only [appendFold, splitAbove?_push]
  split <;> simp [*]

/-! ## All appends -/

theorem shrink_appendFold : Fold.Shrink size [appendFold α floor] := by
  intro fold hfold s x p hback
  obtain rfl := List.mem_singleton.mp hfold
  obtain ⟨-, rfl⟩ := takenBack_appendFold_iff.mp hback
  rfl

/-- Down to the floor every element is taken, and none from there on. -/
theorem min_size_of_unwound (h : Fold.Unwound [appendFold α floor] s taken rest) :
    min rest.size floor = min s.size floor := by
  induction h with
  | stop s => rfl
  | step hfold hback _ ih =>
      obtain rfl := List.mem_singleton.mp hfold
      obtain ⟨hfloor, rfl⟩ := takenBack_appendFold_iff.mp hback
      rw [size_push] at hfloor ⊢
      omega

theorem size_le_of_exhausted (h : Fold.Exhausted [appendFold α floor] s) : s.size ≤ floor := by
  refine Nat.le_of_not_lt fun hfloor => ?_
  obtain ⟨p, x, hpush⟩ := exists_push (Nat.zero_lt_of_lt hfloor)
  exact h _ (List.mem_singleton_self _) x p (takenBack_appendFold_iff.mpr ⟨hfloor, hpush⟩)

theorem refold_appendFold (h : Fold.Unwound [appendFold α floor] s taken rest) (context : Span) :
    taken.foldr (fun x rest => (appendFold α floor).forward context rest x) rest = s :=
  h.refold fun _ _ _ hback => (takenBack_appendFold_iff.mp hback).2

/-- Unwinding stops at a prefix, and the elements taken are the others backwards. -/
theorem toList_of_unwinds (h : Fold.Unwinds [appendFold α floor] s taken rest) :
    rest.toList = s.toList.take (min s.size floor)
      ∧ taken.reverse = s.toList.drop (min s.size floor) := by
  obtain ⟨hrun, hend⟩ := h
  have hsize : rest.toList.length = min s.size floor := by
    rw [← size_eq_length, ← min_size_of_unwound hrun, Nat.min_eq_left (size_le_of_exhausted hend)]
  have hparts : s.toList = rest.toList ++ taken.reverse := by
    rw [← toList_foldl_push, List.foldl_reverse]
    exact congrArg toList (refold_appendFold hrun ⟨0, 0⟩).symm
  rw [hparts, ← hsize, List.take_left, List.drop_left]
  exact ⟨rfl, rfl⟩

/-- An append with a floor is taken back exactly from sequences longer than the floor, and then it
makes them of what it was taken back to. What has just been appended is taken back to where it
came from, unless that is below the floor. Taking back for as long as it goes has one outcome: as
many elements as the sequence has above the floor come off, a prefix is left, and appending the
elements again, the last one taken first, rebuilds the sequence. -/
theorem append_unwinds_to_floor {α : Type} (floor : Nat) (s : Sequence α) :
    (((appendFold α floor).leftInverse s).isSome ↔ floor < s.size)
      ∧ (((appendFold α floor).rightInverse s).isSome ↔ floor < s.size)
      ∧ (∀ context p x,
        (appendFold α floor).leftInverse s = some p ∧ (appendFold α floor).rightInverse s = some x ↔
          floor < s.size ∧ (appendFold α floor).forward context p x = s)
      ∧ (∀ context x,
        ((appendFold α floor).leftInverse ((appendFold α floor).forward context s x) = some s ↔
            floor ≤ s.size)
          ∧ ((appendFold α floor).rightInverse ((appendFold α floor).forward context s x) = some x ↔
            floor ≤ s.size))
      ∧ ∃ taken rest,
        (∀ taken' rest', Fold.Unwinds [appendFold α floor] s taken' rest' ↔
            taken' = taken ∧ rest' = rest)
          ∧ taken.length = s.size - floor
          ∧ rest.toList = s.toList.take (min s.size floor)
          ∧ ∀ context,
            taken.foldr (fun x rest => (appendFold α floor).forward context rest x) rest = s := by
  refine ⟨isSome_leftInverse_appendFold_iff, isSome_rightInverse_appendFold_iff,
    fun _ _ _ => takenBack_appendFold_iff,
    fun _ _ => ⟨leftInverse_push_iff, rightInverse_push_iff⟩, ?_⟩
  obtain ⟨taken, rest, hunwinds⟩ := Fold.exists_unwinds shrink_appendFold s
  obtain ⟨hrest, htaken⟩ := toList_of_unwinds hunwinds
  refine ⟨taken, rest, fun taken' rest' => ⟨fun h => ?_, ?_⟩, ?_, hrest,
    refold_appendFold hunwinds.1⟩
  · obtain ⟨hrest', htaken'⟩ := toList_of_unwinds h
    exact ⟨List.reverse_injective (htaken'.trans htaken.symm),
      toList_inj.mp (hrest'.trans hrest.symm)⟩
  · rintro ⟨rfl, rfl⟩
    exact hunwinds
  · rw [← List.length_reverse, htaken, List.length_drop, ← size_eq_length]
    omega

end Biparse.Sequence
