import Biparse.Proofs.Grammar.Backtracking

/-!
# The rounds of a join come to an end

A join goes on for as long as rounds succeed and move, and nothing in it counts them. Here its
rounds are described as they follow from one another, without the bound under which they are
computed (`Rounds`), together with what the item came to each time it was run.

That a successful item never moves backwards is not seen in the loop; it is what every node keeps to
(`Reduction.parse_restores`). So a round that is followed by another one has consumed at least one
byte (`Stream.Ahead.byteCount_lt`), and there are no more such rounds than bytes. The round that
ends the loop may run the item once more.
-/

namespace Biparse

/-- The rounds of a join from a value and a place on, however many. `outcomes` is what the item came
to in its runs, and `final` the value and the place that the join ends with. -/
inductive Rounds {T : Type} (item : T → Stream → Option T × Stream) (separator : List Char) :
    Bool → T → Stream → List (Option T × Stream) → T × Stream → Prop
  /-- Without a separator the item is not run. -/
  | unseparated {first : Bool} {value : T} {s : Stream}
    (hsep : readSeparator separator first s = none) :
    Rounds item separator first value s [] (value, s)
  /-- An item that fails has its separator given back. -/
  | refused {first : Bool} {value : T} {s after s' : Stream}
    (hsep : readSeparator separator first s = some after) (hout : item value after = (none, s')) :
    Rounds item separator first value s [(none, s')] (value, s'.rewind s)
  /-- A round that has not moved is kept, and is the last. -/
  | unmoved {first : Bool} {value next : T} {s after s' : Stream}
    (hsep : readSeparator separator first s = some after)
    (hout : item value after = (some next, s')) (hpos : s'.pos = s.pos) :
    Rounds item separator first value s [(some next, s')] (next, s')
  /-- Any other round is followed by the next. -/
  | moved {first : Bool} {value next : T} {s after s' : Stream}
    {outcomes : List (Option T × Stream)} {final : T × Stream}
    (hsep : readSeparator separator first s = some after)
    (hout : item value after = (some next, s')) (hpos : s'.pos ≠ s.pos)
    (hlater : Rounds item separator false next s' outcomes final) :
    Rounds item separator first value s ((some next, s') :: outcomes) final

/-- The values and the places behind the items that were accepted. -/
def accepted {T : Type} (outcomes : List (Option T × Stream)) : List (T × Stream) :=
  outcomes.filterMap fun outcome => outcome.1.map (·, outcome.2)

namespace Rounds

variable {T : Type} {item : T → Stream → Option T × Stream} {separator : List Char} {first : Bool}
  {value : T} {s : Stream} {outcomes outcomes' : List (Option T × Stream)}
  {final final' : T × Stream}

/-- Every round has one outcome. -/
theorem unique (h : Rounds item separator first value s outcomes final)
    (h' : Rounds item separator first value s outcomes' final') :
    outcomes' = outcomes ∧ final' = final := by
  induction h generalizing outcomes' final' with
  | unseparated hsep => cases h' <;> simp_all
  | refused hsep hout => cases h' <;> simp_all
  | unmoved hsep hout hpos => cases h' <;> simp_all
  | moved hsep hout hpos hlater ih =>
      cases h' with
      | unseparated hsep' => simp_all
      | refused hsep' hout' => simp_all
      | unmoved hsep' hout' hpos' => simp_all
      | moved hsep' hout' hpos' hlater' =>
          obtain rfl := Option.some.inj (hsep.symm.trans hsep')
          obtain ⟨hnext, rfl⟩ := Prod.mk.inj (hout.symm.trans hout')
          obtain rfl := Option.some.inj hnext
          obtain ⟨rfl, rfl⟩ := ih hlater'
          exact ⟨rfl, rfl⟩

/-! ## One round -/

theorem rewind_of_item (hitem : ∀ value s, Restores s (item value s)) {after s' : Stream}
    (hsep : readSeparator separator first s = some after) (hout : item value after = (none, s')) :
    s'.rewind s = s := by
  obtain rfl : s' = after := (hitem value after).eq_of_none hout
  exact (readSeparator_ahead hsep).rewind

theorem ahead_of_item (hitem : ∀ value s, Restores s (item value s)) {after s' : Stream} {next : T}
    (hsep : readSeparator separator first s = some after)
    (hout : item value after = (some next, s')) : s.Ahead s' :=
  (readSeparator_ahead hsep).trans ((hitem value after).ahead_of_some hout)

/-! ## All rounds -/

/-- There is at most one run for each byte that is left, and one more. -/
theorem length_le (hitem : ∀ value s, Restores s (item value s))
    (h : Rounds item separator first value s outcomes final) :
    outcomes.length ≤ byteCount s.rest + 1 := by
  induction h with
  | unseparated hsep => exact Nat.zero_le _
  | refused hsep hout => exact Nat.le_add_left _ _
  | unmoved hsep hout hpos => exact Nat.le_add_left _ _
  | moved hsep hout hpos hlater ih =>
      have hless := (ahead_of_item hitem hsep hout).byteCount_lt hpos
      rw [List.length_cons]
      omega

/-- The join ends behind the last item it has accepted, or where it was started. -/
theorem final_eq (hitem : ∀ value s, Restores s (item value s))
    (h : Rounds item separator first value s outcomes final) :
    final = (accepted outcomes).getLastD (value, s) := by
  induction h with
  | unseparated hsep => rfl
  | refused hsep hout =>
      rw [rewind_of_item hitem hsep hout]
      rfl
  | unmoved hsep hout hpos => rfl
  | moved hsep hout hpos hlater ih =>
      rw [ih]
      exact List.getLastD_cons.symm

/-- The computed rounds are these, under any bound that exceeds the number of bytes left. -/
theorem readRounds_eq (hitem : ∀ value s, Restores s (item value s))
    (h : Rounds item separator first value s outcomes final) {bound : Nat}
    (hbound : byteCount s.rest < bound) :
    readRounds item separator bound first value s = final := by
  obtain ⟨bound, rfl⟩ : ∃ n, bound = n + 1 := ⟨bound - 1, by omega⟩
  induction h generalizing bound with
  | unseparated hsep => simp only [readRounds, hsep]
  | refused hsep hout => simp only [readRounds, hsep, hout]
  | unmoved hsep hout hpos => simp only [readRounds, hsep, hout, if_pos hpos]
  | moved hsep hout hpos hlater ih =>
      have hless := (ahead_of_item hitem hsep hout).byteCount_lt hpos
      obtain ⟨bound, rfl⟩ : ∃ n, bound = n + 1 := ⟨bound - 1, by omega⟩
      rw [readRounds]
      simp only [hsep, hout, if_neg hpos]
      exact ih bound (by omega)

/-- The rounds come to an end before there are more of them than bytes. -/
theorem exists_rounds (hitem : ∀ value s, Restores s (item value s)) (separator : List Char)
    (first : Bool) (value : T) {s : Stream} {bound : Nat} (hbound : byteCount s.rest < bound) :
    ∃ outcomes final, Rounds item separator first value s outcomes final := by
  induction bound generalizing first value s with
  | zero => omega
  | succ bound ih =>
      cases hsep : readSeparator separator first s with
      | none => exact ⟨_, _, .unseparated hsep⟩
      | some after =>
          rcases hout : item value after with ⟨_ | next, s'⟩
          · exact ⟨_, _, .refused hsep hout⟩
          · by_cases hpos : s'.pos = s.pos
            · exact ⟨_, _, .unmoved hsep hout hpos⟩
            · have hless := (ahead_of_item hitem hsep hout).byteCount_lt hpos
              obtain ⟨outcomes, final, hlater⟩ :=
                ih false next (Nat.lt_of_lt_of_le hless (Nat.le_of_lt_succ hbound))
              exact ⟨_, _, .moved hsep hout hpos hlater⟩

end Rounds

/-- A join never fails to end. Whatever its separator and its item are, and wherever it is started,
its rounds follow from one another to one end, with no more runs of the item than there are bytes
left and one. What the join then answers is a value, and its place is the one right behind the last
item that was accepted; without any, it is where the join was started. -/
theorem join_reading_ends {T : Type} (separator : String) (item : Reduction T T) (left : T)
    (s : Stream) :
    ∃ outcomes final,
      (∀ outcomes' final', Rounds item.parse separator.toList true left s outcomes' final' ↔
        outcomes' = outcomes ∧ final' = final)
      ∧ outcomes.length ≤ byteCount s.rest + 1
      ∧ (Reduction.join separator item).parse left s = (some final.1, final.2)
      ∧ final = (accepted outcomes).getLastD (left, s) := by
  have hitem := Reduction.parse_restores item
  obtain ⟨outcomes, final, hrounds⟩ := Rounds.exists_rounds hitem separator.toList true left
    (Nat.lt_succ_self (byteCount s.rest))
  refine ⟨outcomes, final, fun outcomes' final' => ⟨hrounds.unique, ?_⟩,
    hrounds.length_le hitem, ?_, hrounds.final_eq hitem⟩
  · rintro ⟨rfl, rfl⟩
    exact hrounds
  · have hread := hrounds.readRounds_eq hitem (Nat.lt_succ_self (byteCount s.rest))
    rw [Reduction.parse, hread]

end Biparse
