import Biparse.Grammar.List
import Biparse.Proofs.Grammar.Offsets
import Biparse.Proofs.Grammar.Scopes

/-!
# Only the rest of a text matters

Nodes compare offsets and hand them to components, so a reading knows where in the text it is. It
does not use that for anything else: with components that ignore their context, the same rest of a
text is read the same wherever it stands (`reading_depends_on_rest`).

Seen by scopes (`Biparse.Proofs.Grammar.Scopes`) this says that moving a text moves its reading along
(`Rule.readFrom_shift`, `Reduction.readWithin_shift`). The two readings need not be told the same
spans. A join stops where nothing was consumed, and whether that is so is the same in both, since
their offsets differ by the same number before a round and after it.
-/

namespace Biparse

/-! ## Components that ignore their context -/

section Components

variable {T L E R : Type}

def Initializer.IgnoresContext (initializer : Initializer T) : Prop :=
  ∀ context context', initializer.supply context = initializer.supply context'

def Mapping.IgnoresContext (mapping : Mapping L R) : Prop :=
  ∀ context context' left, mapping.forward context left = mapping.forward context' left

def Fold.IgnoresContext (fold : Fold L E R) : Prop :=
  ∀ context context' left element,
    fold.forward context left element = fold.forward context' left element

end Components

mutual

/-- All components of the rule ignore their context. -/
def Rule.IgnoresContext {T : Type} : Rule T → Prop
  | .word => True
  | .initial initializer => initializer.IgnoresContext
  | .prefixed _ inner => inner.IgnoresContext
  | .reduce head tail => head.IgnoresContext ∧ tail.IgnoresContext

def Reduction.IgnoresContext {L R : Type} : Reduction L R → Prop
  | .apply mapping => mapping.IgnoresContext
  | .put element fold => element.IgnoresContext ∧ fold.IgnoresContext
  | .prefixed _ inner => inner.IgnoresContext
  | .chain first second => first.IgnoresContext ∧ second.IgnoresContext
  | .choice _ first second => first.IgnoresContext ∧ second.IgnoresContext
  | .optional inner => inner.IgnoresContext
  | .join _ item => item.IgnoresContext

end

/-! ## Moving a text -/

namespace Place

variable {α T : Type}

/-- The same rest, `k` bytes further on. -/
def shift (k : Nat) (p : Place) : Place := ⟨p.rest, k + p.pos⟩

/-- A reading, `k` bytes further on. -/
def shifted (k : Nat) : Option (α × Place) → Option (α × Place) :=
  Option.map fun out => (out.1, out.2.shift k)

theorem advance_shift (k : Nat) (p : Place) (n : Nat) :
    (p.shift k).advance n = (p.advance n).shift k := by
  simp [shift, advance, Nat.add_assoc]

theorem eat?_shift (k : Nat) (p : Place) (literal : List Char) :
    (p.shift k).eat? literal = (p.eat? literal).map (shift k) := by
  unfold eat?
  rw [advance_shift, apply_ite (Option.map (shift k))]
  rfl

theorem readWord_shift (k : Nat) (p : Place) : (p.shift k).readWord = shifted k p.readWord := by
  unfold readWord
  simp only [advance_shift]
  rw [show (p.shift k).rest = p.rest from rfl]
  cases p.rest.takeWhile isWordLetter <;> rfl

theorem readSeparator_shift (k : Nat) (separator : List Char) (first : Bool) (p : Place) :
    (p.shift k).readSeparator separator first
      = (p.readSeparator separator first).map (shift k) := by
  unfold readSeparator
  split
  · rfl
  · exact eat?_shift k p separator

theorem readRounds_shift {item item' : T → Place → Option (T × Place)} (k : Nat)
    (separator : List Char)
    (hitem : ∀ value p, item' value (p.shift k) = shifted k (item value p)) (bound : Nat)
    (first : Bool) (value : T) (p : Place) :
    (p.shift k).readRounds item' separator bound first value
      = ((p.readRounds item separator bound first value).1,
          (p.readRounds item separator bound first value).2.shift k) := by
  induction bound generalizing first value p with
  | zero => rfl
  | succ bound ih =>
      have hround : ((p.shift k).readSeparator separator first).bind (item' value)
          = shifted k ((p.readSeparator separator first).bind (item value)) := by
        rw [readSeparator_shift]
        cases p.readSeparator separator first with
        | none => rfl
        | some after => exact hitem value after
      unfold readRounds
      rw [hround]
      cases (p.readSeparator separator first).bind (item value) with
      | none => rfl
      | some out =>
          obtain ⟨next, p'⟩ := out
          have hpos : (p'.shift k).pos = (p.shift k).pos ↔ p'.pos = p.pos := Nat.add_left_cancel_iff
          simp only [shifted, Option.map_some, hpos]
          by_cases h : p'.pos = p.pos
          · rw [if_pos h, if_pos h]
          · rw [if_neg h, if_neg h]
            exact ih false next p'

end Place

mutual

theorem Rule.readFrom_shift {T : Type} (k : Nat) :
    ∀ (rule : Rule T), rule.IgnoresContext → ∀ p : Place,
      rule.readFrom (p.shift k) = Place.shifted k (rule.readFrom p)
  | .word, _, p => by
      rw [Rule.readFrom, Rule.readFrom]
      exact p.readWord_shift k
  | .initial initializer, hignores, p => by
      rw [Rule.readFrom, Rule.readFrom, hignores _ (.empty p.pos)]
      rfl
  | .prefixed literal inner, hignores, p => by
      rw [Rule.readFrom, Rule.readFrom, p.eat?_shift]
      cases p.eat? literal.toList with
      | none => rfl
      | some after => exact Rule.readFrom_shift k inner hignores after
  | .reduce head tail, hignores, p => by
      rw [Rule.readFrom, Rule.readFrom, Rule.readFrom_shift k head hignores.1]
      cases head.readFrom p with
      | none => rfl
      | some out => exact Reduction.readWithin_shift k _ _ tail hignores.2 out.1 out.2

/-- Reading on is the same from the same rest, whatever spans the components are told. -/
theorem Reduction.readWithin_shift {L R : Type} (k : Nat) (told told' : Nat → Span) :
    ∀ (reduction : Reduction L R), reduction.IgnoresContext → ∀ (left : L) (p : Place),
      reduction.readWithin told' left (p.shift k)
        = Place.shifted k (reduction.readWithin told left p)
  | .apply mapping, hignores, left, p => by
      rw [Reduction.readWithin, Reduction.readWithin, hignores _ (told p.pos)]
      cases (mapping.forward (told p.pos) left).toOption <;> rfl
  | .put element fold, hignores, left, p => by
      rw [Reduction.readWithin, Reduction.readWithin, Rule.readFrom_shift k element hignores.1]
      cases element.readFrom p with
      | none => rfl
      | some out =>
          have hfold := hignores.2 (told' (out.2.shift k).pos) (told out.2.pos) left out.1
          simp only [Place.shifted, Option.map_some, Option.bind_eq_bind, Option.bind_some, hfold]
          rfl
  | .prefixed literal inner, hignores, left, p => by
      rw [Reduction.readWithin, Reduction.readWithin, p.eat?_shift]
      cases p.eat? literal.toList with
      | none => rfl
      | some after => exact Reduction.readWithin_shift k told told' inner hignores left after
  | .chain first second, hignores, left, p => by
      rw [Reduction.readWithin, Reduction.readWithin,
        Reduction.readWithin_shift k told told' first hignores.1]
      cases first.readWithin told left p with
      | none => rfl
      | some out => exact Reduction.readWithin_shift k told told' second hignores.2 out.1 out.2
  | .choice _ first second, hignores, left, p => by
      rw [Reduction.readWithin, Reduction.readWithin,
        Reduction.readWithin_shift k told told' first hignores.1,
        Reduction.readWithin_shift k told told' second hignores.2]
      cases first.readWithin told left p <;> rfl
  | .optional inner, hignores, left, p => by
      rw [Reduction.readWithin, Reduction.readWithin,
        Reduction.readWithin_shift k told told' inner hignores]
      cases inner.readWithin told left p <;> rfl
  | .join separator item, hignores, left, p => by
      rw [Reduction.readWithin, Reduction.readWithin, Place.readRounds_shift k _
        (fun value p => Reduction.readWithin_shift k told told' item hignores value p)]
      rfl

end

/-! ## Reading streams and reading by offsets -/

section Streams

variable {α : Type} {rest : List Char} {run : Stream → Option α × Stream}
  {runAt : List Char → Cursor → Except Fault (Option α × Cursor)}

/-- A node comes to one result at `rest` and takes one piece off it, whatever stands before `rest`
and wherever the mark is. It does so on a stream and, without a fault, by offsets in a text. -/
def ReadsAnywhere (rest : List Char) (run : Stream → Option α × Stream)
    (runAt : List Char → Cursor → Except Fault (Option α × Cursor)) : Prop :=
  ∃ value taken left, rest = taken ++ left ∧ ∀ before mark,
    run ⟨rest, byteCount before, mark⟩
      = (value, ⟨left, byteCount before + byteCount taken, mark⟩)
    ∧ runAt (before ++ rest) ⟨byteCount before, mark⟩
      = .ok (value, ⟨byteCount before + byteCount taken, mark⟩)

/-- What a node reads from the start of the rest it reads anywhere, if moving moves the reading. -/
theorem readsAnywhere_of_shifted (out : Option (α × Place))
    (hrun : ∀ k mark, run ⟨rest, k, mark⟩ = Stream.settle ⟨rest, k, mark⟩ (Place.shifted k out))
    (hrestores : ∀ s, Restores s (run s))
    (hcursor : ∀ {text s}, s.Inside text → runAt text s.cursor = .ok (report (run s))) :
    ReadsAnywhere rest run runAt := by
  have hat : ∀ before mark, runAt (before ++ rest) ⟨byteCount before, mark⟩
      = .ok (report (run ⟨rest, byteCount before, mark⟩)) :=
    fun before mark => hcursor (s := ⟨rest, byteCount before, mark⟩) ⟨before, rfl, rfl⟩
  cases out with
  | none =>
      refine ⟨none, [], rest, rfl, fun before mark => ?_⟩
      rw [hat, hrun]
      exact ⟨rfl, rfl⟩
  | some out =>
      obtain ⟨value, p⟩ := out
      have hahead := hrestores ⟨rest, 0, 0⟩
      rw [hrun] at hahead
      obtain ⟨n, -, hmoved⟩ := hahead
      have hleft : p.rest = rest.drop n := congrArg Stream.rest hmoved
      have hpos : p.pos = byteCount (rest.take n) := by
        have := congrArg Stream.pos hmoved
        simpa [Stream.moveTo, Place.shift, Stream.advance] using this
      refine ⟨some value, rest.take n, rest.drop n, (List.take_append_drop n rest).symm,
        fun before mark => ?_⟩
      rw [hat, hrun]
      simp [Place.shifted, Stream.settle, Stream.moveTo, Place.shift, report, Stream.cursor, hleft,
        hpos]

end Streams

/-- Reading depends only on the rest of the text. A node whose components ignore their context comes
to one result at a rest and takes one piece off it, whatever stands before that rest and wherever the
mark is: behind a text as by itself. -/
theorem reading_depends_on_rest :
    (∀ {T : Type} (rule : Rule T), rule.IgnoresContext →
      ∀ rest, ReadsAnywhere rest rule.parse rule.parseAt)
    ∧ ∀ {L R : Type} (reduction : Reduction L R), reduction.IgnoresContext →
      ∀ left rest, ReadsAnywhere rest (reduction.parse left) (reduction.parseAt · left) := by
  constructor
  · intro T rule hignores rest
    have hshift : ∀ k, rule.readFrom ⟨rest, k⟩ = Place.shifted k (rule.readFrom ⟨rest, 0⟩) :=
      fun k => Rule.readFrom_shift k rule hignores ⟨rest, 0⟩
    refine readsAnywhere_of_shifted (rule.readFrom ⟨rest, 0⟩) (fun k mark => ?_)
      rule.parse_restores (fun hs => Rule.parseAt_cursor rule hs)
    rw [rule.parse_eq_readFrom, ← hshift]
    rfl
  · intro L R reduction hignores left rest
    have hshift : ∀ told k, reduction.readWithin told left ⟨rest, k⟩
        = Place.shifted k (reduction.readWithin (Span.mk 0) left ⟨rest, 0⟩) :=
      fun told k => Reduction.readWithin_shift k _ told reduction hignores left ⟨rest, 0⟩
    refine readsAnywhere_of_shifted (reduction.readWithin (Span.mk 0) left ⟨rest, 0⟩)
      (fun k mark => ?_) (reduction.parse_restores left)
      (fun hs => Reduction.parseAt_cursor reduction left hs)
    rw [reduction.parse_eq_readWithin left (Stream.tells_span _), ← hshift]
    rfl

/-- Marks are counted behind an accented letter, with the mark of the stream ahead, as they are
counted by themselves. -/
theorem reading_depends_on_rest_counter :
    (Grammar.counter 0 0 "+" ",").rule.IgnoresContext
    ∧ (Grammar.counter 0 0 "+" ",").rule.parse ⟨"+,+;".toList, 2, 9⟩
      = (some 2, ⟨[';'], 5, 9⟩) := by
  have hignores : (Grammar.counter 0 0 "+" ",").rule.IgnoresContext :=
    ⟨fun _ _ => rfl, fun _ _ _ => rfl⟩
  obtain ⟨value, taken, left, -, hreads⟩ :=
    reading_depends_on_rest.1 (Grammar.counter 0 0 "+" ",").rule hignores "+,+;".toList
  have hself : (Grammar.counter 0 0 "+" ",").rule.parse ⟨"+,+;".toList, 0, 0⟩
      = (some 2, ⟨[';'], 3, 0⟩) := by
    decide
  obtain ⟨rfl, rfl, htaken⟩ : some 2 = value ∧ [';'] = left ∧ 3 = byteCount taken := by
    simpa [byteCount] using hself.symm.trans (hreads [] 0).1
  refine ⟨hignores, ?_⟩
  rw [show 5 = byteCount ['é'] + byteCount taken by rw [← htaken]; rfl]
  exact (hreads ['é'] 9).1

end Biparse
