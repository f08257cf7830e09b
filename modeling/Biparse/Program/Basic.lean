import Biparse.Source.Span

/-!
# Programs over registers

A program is a series of steps on a growing row of registers. A step either makes a new register or
answers a question; it never changes a register that is there. Every step has a context span, which
is resolved before anything else, and its arguments may turn out to hold an inverted span: then the
step answers that and has no effect.
-/

namespace Biparse.Program

/-- A step: an action and the span of the construct it is taken in. -/
structure Step (A : Type) where
  context : Span.Form
  action : Except InvertedSpan A

/-- The context and the action, if no inverted span is in the way. -/
def Step.resolve {A : Type} (step : Step A) : Except InvertedSpan (Span × A) := do
  let context ← step.context.resolve
  let action ← step.action
  return (context, action)

/-- What an action comes to: a new register, with the number of identities it used up and a note, or
an answer. -/
inductive Effect (R B : Type) where
  | make (register : R) (used : Nat) (note : B)
  | answer (answer : B)

/-- What is said about a step. -/
inductive Reply (R B : Type) where
  | made (index : Nat) (register : R) (note : B)
  | answer (context : Span) (answer : B)
  | inverted (e : InvertedSpan)

/-- The registers made so far, and the first identity that none of them uses. -/
structure Bench (R : Type) where
  registers : List R
  next : Nat

namespace Bench

variable {R A B : Type}

/-- Takes one step. -/
def step (perform : Bench R → Span → A → Effect R B) (bench : Bench R) (step : Step A) :
    Bench R × Reply R B :=
  match step.resolve with
  | .error e => (bench, .inverted e)
  | .ok (context, action) =>
    match perform bench context action with
    | .make register used note =>
      (⟨bench.registers ++ [register], bench.next + used⟩,
        .made bench.registers.length register note)
    | .answer answer => (bench, .answer context answer)

/-- Takes steps one after another. -/
def run (perform : Bench R → Span → A → Effect R B) (bench : Bench R) :
    List (Step A) → Bench R × List (Reply R B)
  | [] => (bench, [])
  | s :: rest =>
    let (bench, reply) := bench.step perform s
    let (bench, replies) := bench.run perform rest
    (bench, reply :: replies)

/-- The effect of an action on a register; there is a complaint when there is no such register. -/
def withRegister (bench : Bench R) (index : Nat) (complaint : B) (effect : R → Effect R B) :
    Effect R B :=
  match bench.registers[index]? with
  | some register => effect register
  | none => .answer complaint

end Bench

/-! ## Steps that take an action -/

variable {R A B : Type} {perform : Bench R → Span → A → Effect R B} {bench : Bench R}
  {step : Step A} {action : A}

/-- A step that takes an action, whatever span it is taken in. -/
def Step.Does (step : Step A) (action : A) : Prop :=
  ∃ context, step.resolve = .ok (context, action)

namespace Bench

theorem withRegister_of_getElem? {i : Nat} {register : R}
    (h : bench.registers[i]? = some register) (complaint : B) (effect : R → Effect R B) :
    bench.withRegister i complaint effect = effect register := by
  rw [withRegister, h]

theorem registers_of_make {register : R} {used : Nat} {note : B} (h : step.Does action)
    (hmake : ∀ context, perform bench context action = .make register used note) :
    (bench.step perform step).1.registers = bench.registers ++ [register] := by
  obtain ⟨context, hresolve⟩ := h
  simp [Bench.step, hresolve, hmake context]

theorem registers_of_answer {answer : B} (h : step.Does action)
    (hanswer : ∀ context, perform bench context action = .answer answer) :
    (bench.step perform step).1.registers = bench.registers := by
  obtain ⟨context, hresolve⟩ := h
  simp [Bench.step, hresolve, hanswer context]

theorem run_append (steps more : List (Step A)) :
    (bench.run perform (steps ++ more)).1 = ((bench.run perform steps).1.run perform more).1 := by
  induction steps generalizing bench with
  | nil => rfl
  | cons step rest ih => exact ih

end Bench

end Biparse.Program
