import Biparse.Component

/-!
# Integer components

The literal mapping between texts and integers, and the counter step.
-/

namespace Biparse.Integer

/-- Between decimal texts and integers; printing gives the canonical text. -/
def literal : Mapping String Int64 where
  forward _ text := (parse text).mapError fun reason => .format ⟨text, reason⟩
  backward n := some (print n)

/-- The largest integer. -/
def maxValue : Int64 := Int64.maxValue

/-- Adds one; backward takes one away while the result stays at or above `floor`, which is what
ends the unwinding of a counter. -/
def increment (floor : Int64) : Mapping Int64 Int64 where
  forward _ n := if n = maxValue then .error (.overflow n) else .ok (n + 1)
  backward n := if floor < n then some (n - 1) else none

/-- How `increment` is shown. -/
def incrementDisplay (floor : Int64) : String := "\x7b" ++ print floor ++ "...+1\x7d"

/-- What unwinding `n` by `increment floor` gives step by step, at most `limit` steps. -/
def unwind (floor : Int64) : Nat → Int64 → List Int64
  | 0, _ => []
  | limit + 1, n =>
    match (increment floor).backward n with
    | some previous => previous :: unwind floor limit previous
    | none => []

end Biparse.Integer
