import Biparse.Error
import Biparse.Source.Span

/-!
# Covers of several spans

A cover is refused when its bounds would come out inverted, and for that both of its spans have to
be (`Span.cover_eq_error_iff`). Covers of unchecked spans can therefore depend on their grouping:
whichever pair comes first may be refused, though a third span would have mended it.

For well-formed spans the invariant is that every intermediate result is well formed again, and the
hull of the spans it is made of (`Covering.eval_eq_ok`). A hull is told by the spans alone, however
often and in whatever order they occur (`Span.IsHull.unique`), so all ways to put the same spans
together end in the same one.
-/

namespace Biparse

namespace Span

variable {a b s whole other : Span} {spans spans' : List Span}

/-! ## One cover -/

theorem cover_eq_error_iff {e : InvertedSpan} :
    a.cover b = .error e ↔ max a.stop b.stop < min a.start b.start
      ∧ e = ⟨min a.start b.start, max a.stop b.stop⟩ :=
  checked_eq_error_iff

theorem cover_eq_ok (h : a.WellFormed ∨ b.WellFormed) :
    a.cover b = .ok ⟨min a.start b.start, max a.stop b.stop⟩ := by
  refine checked_eq_ok_iff.mpr ⟨?_, rfl⟩
  simp only [WellFormed] at h
  omega

/-! ## Hulls -/

/-- Lies between the bounds of another span. -/
def Within (a b : Span) : Prop := b.start ≤ a.start ∧ a.stop ≤ b.stop

/-- Goes from the least start of some spans to their greatest end. -/
structure IsHull (spans : List Span) (whole : Span) : Prop where
  exists_start : ∃ s ∈ spans, s.start = whole.start
  exists_stop : ∃ s ∈ spans, s.stop = whole.stop
  start_le : ∀ s ∈ spans, whole.start ≤ s.start
  le_stop : ∀ s ∈ spans, s.stop ≤ whole.stop

namespace IsHull

theorem singleton (s : Span) : IsHull [s] s := by
  constructor <;> simp

/-- What one cover does to the hulls of its two parts. -/
theorem append (ha : IsHull spans a) (hb : IsHull spans' b) :
    IsHull (spans ++ spans') ⟨min a.start b.start, max a.stop b.stop⟩ where
  exists_start := by
    rcases Nat.le_total a.start b.start with hle | hle
    · obtain ⟨s, hs, hstart⟩ := ha.exists_start
      exact ⟨s, List.mem_append_left _ hs, by rw [hstart, Nat.min_eq_left hle]⟩
    · obtain ⟨s, hs, hstart⟩ := hb.exists_start
      exact ⟨s, List.mem_append_right _ hs, by rw [hstart, Nat.min_eq_right hle]⟩
  exists_stop := by
    rcases Nat.le_total a.stop b.stop with hle | hle
    · obtain ⟨s, hs, hstop⟩ := hb.exists_stop
      exact ⟨s, List.mem_append_right _ hs, by rw [hstop, Nat.max_eq_right hle]⟩
    · obtain ⟨s, hs, hstop⟩ := ha.exists_stop
      exact ⟨s, List.mem_append_left _ hs, by rw [hstop, Nat.max_eq_left hle]⟩
  start_le s hs := by
    rcases List.mem_append.mp hs with hs | hs
    · exact Nat.le_trans (Nat.min_le_left _ _) (ha.start_le s hs)
    · exact Nat.le_trans (Nat.min_le_right _ _) (hb.start_le s hs)
  le_stop s hs := by
    rcases List.mem_append.mp hs with hs | hs
    · exact Nat.le_trans (ha.le_stop s hs) (Nat.le_max_left _ _)
    · exact Nat.le_trans (hb.le_stop s hs) (Nat.le_max_right _ _)

theorem within (h : IsHull spans whole) (hs : s ∈ spans) : s.Within whole :=
  ⟨h.start_le s hs, h.le_stop s hs⟩

theorem within_of_forall (h : IsHull spans whole) (hwithin : ∀ s ∈ spans, s.Within other) :
    whole.Within other := by
  obtain ⟨first, hfirst, hstart⟩ := h.exists_start
  obtain ⟨last, hlast, hstop⟩ := h.exists_stop
  rw [Within, ← hstart, ← hstop]
  exact ⟨(hwithin first hfirst).1, (hwithin last hlast).2⟩

theorem unique (h : IsHull spans whole) (h' : IsHull spans' other)
    (hsame : ∀ s, s ∈ spans ↔ s ∈ spans') : whole = other := by
  obtain ⟨hstart, hstop⟩ := h.within_of_forall fun s hs => h'.within ((hsame s).mp hs)
  obtain ⟨hstart', hstop'⟩ := h'.within_of_forall fun s hs => h.within ((hsame s).mpr hs)
  rw [show whole = ⟨whole.start, whole.stop⟩ from rfl, Nat.le_antisymm hstart' hstart,
    Nat.le_antisymm hstop hstop']

end IsHull

end Span

/-! ## Several covers -/

/-- A way to put spans together by covers. -/
inductive Covering where
  | one (s : Span)
  | cover (left right : Covering)
deriving Repr, DecidableEq

namespace Covering

/-- The spans that are put together, from left to right. -/
def spans : Covering → List Span
  | one s => [s]
  | cover left right => left.spans ++ right.spans

/-- The result, unless one of the covers is refused. -/
def eval : Covering → Except InvertedSpan Span
  | one s => .ok s
  | cover left right => do
    let a ← left.eval
    let b ← right.eval
    a.cover b

theorem exists_spans_eq {spans : List Span} (h : spans ≠ []) : ∃ c : Covering, c.spans = spans := by
  induction spans with
  | nil => exact absurd rfl h
  | cons s rest ih =>
      by_cases hrest : rest = []
      · exact ⟨one s, by rw [hrest, Covering.spans]⟩
      · obtain ⟨c, hc⟩ := ih hrest
        exact ⟨cover (one s) c, by rw [Covering.spans, Covering.spans, hc, List.singleton_append]⟩

/-- Well-formed spans are put together without a refusal, to their hull. -/
theorem eval_eq_ok (c : Covering) (h : ∀ s ∈ c.spans, s.WellFormed) :
    ∃ whole : Span, c.eval = .ok whole ∧ whole.WellFormed ∧ Span.IsHull c.spans whole := by
  induction c with
  | one s => exact ⟨s, rfl, h s (List.mem_singleton_self s), .singleton s⟩
  | cover left right ihleft ihright =>
      rw [spans, List.forall_mem_append] at h
      obtain ⟨a, ha, hwell, hhull⟩ := ihleft h.1
      obtain ⟨b, hb, -, hhull'⟩ := ihright h.2
      have hcover := Span.cover_eq_ok (b := b) (.inl hwell)
      refine ⟨_, ?_, Span.wellFormed_of_checked hcover, hhull.append hhull'⟩
      rw [eval, ha, hb]
      exact hcover

end Covering

/-- Covers join spans. Well-formed spans can be put together in every order and every grouping, and
some of them more than once: no cover is refused, and the result is always the hull of the spans,
which lies within every span that they all lie within. A single cover of any two spans is refused
exactly when the greater end is below the lesser start, so never when one of them is well formed. -/
theorem cover_joins_spans :
    (∀ spans : List Span, spans ≠ [] → (∃ c : Covering, c.spans = spans)
      ∧ ((∀ s ∈ spans, s.WellFormed) → ∃ whole : Span, whole.WellFormed
        ∧ Span.IsHull spans whole
        ∧ (∀ s ∈ spans, s.Within whole)
        ∧ (∀ around : Span, (∀ s ∈ spans, s.Within around) → whole.Within around)
        ∧ ∀ c : Covering, (∀ s, s ∈ c.spans ↔ s ∈ spans) → c.eval = .ok whole))
    ∧ ∀ a b : Span,
      (∀ e, a.cover b = .error e ↔ max a.stop b.stop < min a.start b.start
        ∧ e = ⟨min a.start b.start, max a.stop b.stop⟩)
      ∧ (a.WellFormed ∨ b.WellFormed → ∃ s, a.cover b = .ok s) := by
  refine ⟨fun spans hne => ?_, fun a b =>
    ⟨fun _ => Span.cover_eq_error_iff, fun h => ⟨_, Span.cover_eq_ok h⟩⟩⟩
  obtain ⟨c, hc⟩ := Covering.exists_spans_eq hne
  refine ⟨⟨c, hc⟩, fun hspans => ?_⟩
  obtain ⟨whole, -, hwell, hhull⟩ := c.eval_eq_ok (by rwa [hc])
  rw [hc] at hhull
  refine ⟨whole, hwell, hhull, fun _ => hhull.within, fun _ => hhull.within_of_forall,
    fun other hsame => ?_⟩
  obtain ⟨whole', heval, -, hhull'⟩ := other.eval_eq_ok fun s hs => hspans s ((hsame s).mp hs)
  rw [heval, hhull'.unique hhull hsame]

/-- Of unchecked spans the same three are refused in one grouping and not in the other. -/
example :
    let a : Span := ⟨5, 3⟩
    let b : Span := ⟨6, 2⟩
    let c : Span := ⟨0, 1⟩
    (Covering.cover (.cover (.one a) (.one b)) (.one c)).eval = .error ⟨5, 3⟩
      ∧ (Covering.cover (.one a) (.cover (.one b) (.one c))).eval = .ok ⟨0, 3⟩ :=
  ⟨rfl, rfl⟩

end Biparse
