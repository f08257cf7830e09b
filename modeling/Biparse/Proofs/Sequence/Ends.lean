import Biparse.Sequence.Basic

/-!
# Taking from both ends delivers each element once

At every moment of a series of takes the elements of the row are, in this order, those taken from
the front, those that are left, and those taken from the back in reverse (`delivered_append_left`).
One take keeps this by moving one element over one of the two borders, so the whole series does,
however front and back takes alternate. That a take comes back empty, and what length is reported,
is read off what is left; and nothing can be left again once nothing is.
-/

namespace Biparse

variable {α : Type} {side : Side} {items : List α} {past future : List Side}

/-! ## One take -/

/-- What is left after a take, with the element put back where it was taken. -/
def Side.putBack (side : Side) (taken : Option α) (left : List α) : List α :=
  match side with
  | .front => taken.toList ++ left
  | .back => left ++ taken.toList

theorem Side.putBack_take (side : Side) (items : List α) :
    side.putBack (side.take items).1 (side.take items).2 = items := by
  cases side with
  | front => cases items <;> rfl
  | back =>
      cases hlast : items.getLast? with
      | none => simp [List.getLast?_eq_none_iff.mp hlast, take, putBack]
      | some x =>
          obtain ⟨before, rfl⟩ := List.getLast?_eq_some_iff.mp hlast
          simp [take, putBack]

theorem Side.take_eq_none_iff : (side.take items).1 = none ↔ items = [] := by
  cases side with
  | front => exact List.head?_eq_none_iff
  | back => exact List.getLast?_eq_none_iff

theorem Side.take_nil : side.take ([] : List α) = (none, []) := by
  cases side <;> rfl

/-! ## A series of takes -/

/-- What a series of takes leaves. -/
def leftAfter (items : List α) (pattern : List Side) : List α :=
  pattern.foldl (fun items side => (side.take items).2) items

/-- What the takes from one side delivered, in the order of the takes. -/
def delivered (side : Side) (pattern : List Side) (answers : List (Option α × Nat)) : List α :=
  (pattern.zip answers).filterMap fun (taker, answer) => if taker = side then answer.1 else none

theorem leftAfter_cons : leftAfter items (side :: past) = leftAfter (side.take items).2 past := rfl

theorem takeEnds_cons :
    takeEnds items (side :: past)
      = ((side.take items).1, (side.take items).2.length) :: takeEnds (side.take items).2 past :=
  rfl

theorem delivered_cons {taker : Side} :
    delivered side (taker :: past) (takeEnds items (taker :: past))
      = (if taker = side then (taker.take items).1.toList else [])
        ++ delivered side past (takeEnds (taker.take items).2 past) := by
  rw [takeEnds_cons, delivered, List.zip_cons_cons, List.filterMap_cons]
  cases (taker.take items).1 <;> by_cases h : taker = side <;> simp [h, delivered]

theorem takeEnds_append :
    takeEnds items (past ++ future)
      = takeEnds items past ++ takeEnds (leftAfter items past) future := by
  induction past generalizing items with
  | nil => rfl
  | cons side past ih =>
      rw [List.cons_append, takeEnds_cons, ih, takeEnds_cons, leftAfter_cons, List.cons_append]

theorem takeEnds_nil : takeEnds ([] : List α) past = past.map fun _ => (none, 0) := by
  induction past with
  | nil => rfl
  | cons side past ih => rw [takeEnds_cons, Side.take_nil, ih, List.map_cons, List.length_nil]

/-- The length reported last, or the first one if there was no take yet, is that of what is left. -/
theorem getLast?_lengths :
    (items.length :: (takeEnds items past).map Prod.snd).getLast?
      = some (leftAfter items past).length := by
  induction past generalizing items with
  | nil => rfl
  | cons side past ih =>
      rw [takeEnds_cons, List.map_cons, List.getLast?_cons_cons, ih, leftAfter_cons]

/-- Nothing is lost and nothing delivered twice: what was taken from the front, what is left, and
what was taken from the back, read backwards, make up the row. -/
theorem delivered_append_left :
    delivered .front past (takeEnds items past) ++ leftAfter items past
      ++ (delivered .back past (takeEnds items past)).reverse = items := by
  induction past generalizing items with
  | nil => simp [takeEnds, delivered, leftAfter]
  | cons taker past ih =>
      rw [delivered_cons, delivered_cons, leftAfter_cons]
      -- The element taken now stands outside of all that is taken later.
      calc
        _ = taker.putBack (taker.take items).1
              (delivered .front past (takeEnds (taker.take items).2 past)
                ++ leftAfter (taker.take items).2 past
                ++ (delivered .back past (takeEnds (taker.take items).2 past)).reverse) := by
          cases taker with
          | front => simp [Side.putBack]
          | back => cases (Side.back.take items).1 <;> simp [Side.putBack]
        _ = taker.putBack (taker.take items).1 (taker.take items).2 := by rw [ih]
        _ = items := taker.putBack_take items

/-! ## Sequences -/

namespace Sequence

variable {s : Sequence α} {fronts middle backs : List α}

theorem get?_front (h : fronts ++ middle ++ backs.reverse = s.toList) {i : Nat}
    (hi : i < fronts.length) : fronts[i]? = s.get? i := by
  rw [get?_eq_getElem?, ← h, List.append_assoc, List.getElem?_append_left hi]

theorem get?_back (h : fronts ++ middle ++ backs.reverse = s.toList) {i : Nat}
    (hi : i < backs.length) : backs[i]? = s.get? (s.size - 1 - i) := by
  have hsize : s.size = (fronts ++ middle).length + backs.length := by
    rw [size_eq_length, ← h, List.length_append, List.length_reverse]
  rw [get?_eq_getElem?, ← h, List.getElem?_append_right (by omega),
    List.getElem?_reverse (by omega)]
  congr 1
  omega

/-- What holds of a sequence after some takes, of which those from the front delivered `fronts` and
those from the back `backs`. -/
structure Taken (s : Sequence α) (past : List Side) (fronts backs : List α) : Prop where
  front : ∀ i < fronts.length, fronts[i]? = s.get? i
  back : ∀ i < backs.length, backs[i]? = s.get? (s.size - 1 - i)
  bounded : fronts.length + backs.length ≤ s.size
  reported : (s.size :: (takeEnds s.toList past).map Prod.snd).getLast?
    = some (s.size - fronts.length - backs.length)
  next : ∀ side, ∃ taken left,
    takeEnds s.toList (past ++ [side]) = takeEnds s.toList past ++ [(taken, left)]
      ∧ (taken = none ↔ fronts.length + backs.length = s.size)
  exhausted : fronts.length + backs.length = s.size →
    fronts ++ backs.reverse = s.toList
      ∧ ∀ future, takeEnds s.toList (past ++ future)
          = takeEnds s.toList past ++ future.map fun _ => (none, 0)

theorem taken_of_append_left {past : List Side}
    (hrow : fronts ++ leftAfter s.toList past ++ backs.reverse = s.toList) :
    s.Taken past fronts backs := by
  have hsize : s.size = fronts.length + (leftAfter s.toList past).length + backs.length := by
    rw [size_eq_length, ← congrArg List.length hrow, List.length_append, List.length_append,
      List.length_reverse]
  have hleft : leftAfter s.toList past = [] ↔ fronts.length + backs.length = s.size := by
    rw [← List.length_eq_zero_iff]
    omega
  exact
    { front := fun i hi => get?_front hrow hi
      back := fun i hi => get?_back hrow hi
      bounded := by omega
      reported := by
        rw [size_eq_length, getLast?_lengths, ← size_eq_length, Option.some.injEq]
        omega
      next := fun side => ⟨_, _, takeEnds_append, Side.take_eq_none_iff.trans hleft⟩
      exhausted := fun hall => by
        have hnil := hleft.mpr hall
        rw [hnil, List.append_nil] at hrow
        exact ⟨hrow, fun future => by rw [takeEnds_append, hnil, takeEnds_nil]⟩ }

/-- However takes from the front and from the back alternate, every element is delivered once, from
its own side and in order; the length reported is the number of elements not delivered yet; and a
take is refused when there are none, from then on always. The buffer that is taken from holds the
elements in order, for all that it is filled from the back. -/
theorem ends_deliver_once (s : Sequence α) (past : List Side) :
    s.backwards.reverse = s.toList
      ∧ s.Taken past (delivered .front past (takeEnds s.toList past))
          (delivered .back past (takeEnds s.toList past)) := by
  refine ⟨?_, taken_of_append_left delivered_append_left⟩
  rw [backwards_eq_reverse, List.reverse_reverse]

end Sequence

/-- The ends meet in the middle, and from then on nothing is delivered from either. -/
example : takeEnds (Sequence.ofList [1, 2, 3]).toList [.back, .front, .back, .front, .back]
    = [(some 3, 2), (some 1, 1), (some 2, 0), (none, 0), (none, 0)] := by
  decide

end Biparse
