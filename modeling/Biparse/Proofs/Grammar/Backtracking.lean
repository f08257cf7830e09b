import Biparse.Grammar.Parse

/-!
# A failed node leaves no trace

Reading tries an alternative from where the one before it was started, so a node that fails must
put back what it moved: the place it reads from, and the mark that nested constructs overwrite.

The invariant is one line for all nodes (`Restores`): a failure hands back the very stream it was
given, and a success is that stream moved forward over whole characters, its mark untouched. Every
node keeps it as soon as its parts do (`Rule.parse_restores`, `Reduction.parse_restores`). The
nodes that try a second part after the first rely on `Restores.rewound`; the loop of a join is
`readRounds_ahead`.
-/

namespace Biparse

namespace Stream

/-- `s'` is `s` moved forward over whole characters of its rest. -/
def Ahead (s s' : Stream) : Prop := ∃ n ≤ s.rest.length, s' = s.advance n

theorem Ahead.refl (s : Stream) : s.Ahead s := ⟨0, Nat.zero_le _, s.advance_zero.symm⟩

theorem Ahead.trans {s s' s'' : Stream} (h : s.Ahead s') (h' : s'.Ahead s'') : s.Ahead s'' := by
  obtain ⟨n, hn, rfl⟩ := h
  obtain ⟨m, hm, rfl⟩ := h'
  refine ⟨n + m, ?_, advance_advance s n m⟩
  rw [rest_advance, List.length_drop] at hm
  omega

theorem Ahead.rewind {s s' : Stream} (h : s.Ahead s') : s'.rewind s = s := by
  obtain ⟨n, -, rfl⟩ := h
  exact rewind_advance s n

/-- Moving forward does not depend on where the mark stands. -/
theorem Ahead.setMark {s s' : Stream} {old : Nat} (h : (s.setMark old).Ahead s') (mark : Nat) :
    (s.setMark mark).Ahead (s'.setMark mark) := by
  obtain ⟨n, hn, rfl⟩ := h
  exact ⟨n, hn, rfl⟩

theorem Ahead.of_eat? {s s' : Stream} {literal : List Char} (h : s.eat? literal = some s') :
    s.Ahead s' := by
  obtain ⟨hpre, rfl⟩ := eat?_eq_some_iff.mp h
  exact ⟨literal.length, (List.isPrefixOf_iff_prefix.mp hpre).length_le, rfl⟩

theorem Ahead.mark_eq {s s' : Stream} (h : s.Ahead s') : s'.mark = s.mark := by
  obtain ⟨n, -, rfl⟩ := h
  exact mark_advance s n

theorem Ahead.pos_le {s s' : Stream} (h : s.Ahead s') : s.pos ≤ s'.pos := by
  obtain ⟨n, -, rfl⟩ := h
  exact pos_le_advance s n

theorem Ahead.pos_add_byteCount {s s' : Stream} (h : s.Ahead s') :
    s'.pos + byteCount s'.rest = s.pos + byteCount s.rest := by
  obtain ⟨n, -, rfl⟩ := h
  exact pos_add_byteCount_advance s n

/-- Whoever has moved at all has consumed a byte. -/
theorem Ahead.byteCount_lt {s s' : Stream} (h : s.Ahead s') (hmoved : s'.pos ≠ s.pos) :
    byteCount s'.rest < byteCount s.rest := by
  have hle := h.pos_le
  have hsum := h.pos_add_byteCount
  omega

theorem Inside.of_ahead {text : List Char} {s s' : Stream} (hs : s.Inside text)
    (h : s.Ahead s') : s'.Inside text := by
  obtain ⟨n, -, rfl⟩ := h
  exact hs.advance n

end Stream

/-! ## The invariant -/

/-- What a node that was started at `s` may come back with: `s` itself if it fails, and `s` moved
forward if it succeeds. -/
def Restores {α : Type} (s : Stream) : Option α × Stream → Prop
  | (none, s') => s' = s
  | (some _, s') => s.Ahead s'

theorem Restores.eq_of_none {α : Type} {s s' : Stream} {out : Option α × Stream}
    (h : Restores s out) (hout : out = (none, s')) : s' = s := by
  rwa [hout] at h

theorem Restores.ahead_of_some {α : Type} {s s' : Stream} {out : Option α × Stream} {value : α}
    (h : Restores s out) (hout : out = (some value, s')) : s.Ahead s' := by
  rwa [hout] at h

/-- A second part that is started after a first one, and whose failure is answered by going back to
where the first one was started. -/
theorem Restores.rewound {α : Type} {s after : Stream} {out : Option α × Stream}
    (hafter : s.Ahead after) (h : Restores after out) :
    Restores s (match out with
      | (none, s') => (none, s'.rewind s)
      | (some value, s') => (some value, s')) := by
  match out, h with
  | (none, _), rfl => exact hafter.rewind
  | (some _, _), h => exact hafter.trans h

/-! ## One lemma for each reader -/

theorem readWord_restores (s : Stream) : Restores s (readWord s) := by
  unfold readWord
  split
  · rfl
  · exact ⟨_, (List.takeWhile_prefix isWordLetter).length_le, rfl⟩

theorem readSeparator_ahead {separator : List Char} {first : Bool} {s after : Stream}
    (h : readSeparator separator first s = some after) : s.Ahead after := by
  unfold readSeparator at h
  split at h
  · obtain rfl := Option.some.inj h
    exact .refl s
  · exact .of_eat? h

/-- A join never fails, and wherever it stops is ahead of where it started: the round that fails
has given back its separator too. -/
theorem readRounds_ahead {T : Type} {item : T → Stream → Option T × Stream} (separator : List Char)
    (hitem : ∀ value s, Restores s (item value s)) (bound : Nat) (first : Bool) (value : T)
    (s : Stream) : s.Ahead (readRounds item separator bound first value s).2 := by
  induction bound generalizing first value s with
  | zero => exact .refl s
  | succ bound ih =>
      unfold readRounds
      split
      · exact .refl s
      · rename_i after hafter
        have hsep : s.Ahead after := readSeparator_ahead hafter
        rcases hout : item value after with ⟨_ | next, s'⟩
        · obtain rfl : s' = after := (hitem value after).eq_of_none hout
          simp only
          rw [hsep.rewind]
          exact .refl s
        · have hs' : s.Ahead s' := hsep.trans ((hitem value after).ahead_of_some hout)
          simp only
          split
          · exact hs'
          · exact hs'.trans (ih false next s')

/-! ## Every node keeps it -/

mutual

/-- A rule either fails and leaves the stream alone or moves it forward. -/
theorem Rule.parse_restores {T : Type} : ∀ (rule : Rule T) (s : Stream), Restores s (rule.parse s)
  | .word, s => by
      rw [Rule.parse]
      exact readWord_restores s
  | .initial _, s => by
      rw [Rule.parse]
      exact .refl s
  | .prefixed literal inner, s => by
      rw [Rule.parse]
      split
      · rfl
      · rename_i after hafter
        exact (Rule.parse_restores inner after).rewound (.of_eat? hafter)
  | .reduce head tail, s => by
      rw [Rule.parse]
      have hhead := Rule.parse_restores head (s.setMark s.pos)
      match head.parse (s.setMark s.pos), hhead with
      | (none, _), rfl => rfl
      | (some left, s'), hhead =>
          -- the head may have come from anywhere, so the outer mark is put back over its own
          have hs' : s.Ahead (s'.setMark s.mark) := hhead.setMark s.mark
          have htail := Reduction.parse_restores tail left (s'.setMark s.pos)
          simp only
          match tail.parse left (s'.setMark s.pos), htail with
          | (none, _), rfl => exact hs'.rewind
          | (some _, s''), htail => exact hs'.trans (htail.setMark s.mark)

/-- A reduction either fails and leaves the stream alone or moves it forward. -/
theorem Reduction.parse_restores {L R : Type} :
    ∀ (reduction : Reduction L R) (left : L) (s : Stream), Restores s (reduction.parse left s)
  | .apply mapping, left, s => by
      rw [Reduction.parse]
      cases (mapping.forward s.span left).toOption with
      | none => rfl
      | some value => exact .refl s
  | .put element fold, left, s => by
      rw [Reduction.parse]
      have helement := Rule.parse_restores element s
      match element.parse s, helement with
      | (none, _), rfl => rfl
      | (some value, s'), helement => exact helement
  | .prefixed literal inner, left, s => by
      rw [Reduction.parse]
      split
      · rfl
      · rename_i after hafter
        exact (Reduction.parse_restores inner left after).rewound (.of_eat? hafter)
  | .chain first second, left, s => by
      rw [Reduction.parse]
      have hfirst := Reduction.parse_restores first left s
      match first.parse left s, hfirst with
      | (none, _), rfl => rfl
      | (some middle, s'), hfirst =>
          exact (Reduction.parse_restores second middle s').rewound hfirst
  | .choice _ first second, left, s => by
      rw [Reduction.parse]
      have hfirst := Reduction.parse_restores first left s
      match first.parse left s, hfirst with
      | (some value, s'), hfirst => exact hfirst
      | (none, _), rfl => exact (Reduction.parse_restores second left s).rewound (.refl s)
  | .optional inner, left, s => by
      rw [Reduction.parse]
      have hinner := Reduction.parse_restores inner left s
      match inner.parse left s, hinner with
      | (some value, s'), hinner => exact hinner
      | (none, _), rfl => exact .refl s
  | .join separator item, left, s => by
      rw [Reduction.parse]
      have hrounds := readRounds_ahead separator.toList (Reduction.parse_restores item)
        (byteCount s.rest + 1) true left s
      exact hrounds

end

end Biparse
