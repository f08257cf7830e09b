import Biparse.Grammar.Parse

/-!
# Printing by a grammar

Printing runs the components of a grammar backward and concatenates what the nodes stand for. Any
node may refuse a value, and then another alternative is tried.

A join prints by undoing items until one is refused. Nothing in a grammar says that this ends, so
printing works under a bound on the items that one join undoes and says when the bound was met.
Once printing has finished, a larger bound changes nothing.
-/

namespace Biparse

/-- What printing comes to. -/
inductive Printed (α : Type) where
  /-- A result. -/
  | done (result : α)
  /-- The value is not one this grammar prints. -/
  | refused
  /-- The bound was met before there was an answer. -/
  | unfinished
deriving Repr, DecidableEq

namespace Printed

variable {α β : Type}

/-- Goes on with a result. -/
def bind (p : Printed α) (f : α → Printed β) : Printed β :=
  match p with
  | done result => f result
  | refused => refused
  | unfinished => unfinished

instance : Monad Printed where
  pure := done
  bind := bind

/-- The alternative, where the first attempt was refused. -/
def orElse (p : Printed α) (alternative : Unit → Printed α) : Printed α :=
  match p with
  | done result => done result
  | refused => alternative ()
  | unfinished => unfinished

/-- An inverse that refuses where it has no answer. -/
def ofOption : Option α → Printed α
  | some result => done result
  | none => refused

/-- The result, if there is one. -/
def result? : Printed α → Option α
  | done result => some result
  | _ => none

/-! ## How attempts are put together -/

@[simp] theorem pure_eq_done (result : α) : (pure result : Printed α) = done result := rfl

@[simp] theorem done_bind (result : α) (f : α → Printed β) : (done result >>= f) = f result := rfl

@[simp] theorem refused_bind (f : α → Printed β) : (refused >>= f) = refused := rfl

@[simp] theorem unfinished_bind (f : α → Printed β) : (unfinished >>= f) = unfinished := rfl

@[simp] theorem bind_done (p : Printed α) : (p >>= done) = p := by
  cases p <;> rfl

@[simp] theorem done_orElse (result : α) (p : Unit → Printed α) :
    (done result).orElse p = done result := rfl

@[simp] theorem refused_orElse (p : Unit → Printed α) : refused.orElse p = p () := rfl

@[simp] theorem ofOption_some (result : α) : ofOption (some result) = done result := rfl

@[simp] theorem ofOption_none : ofOption (none : Option α) = refused := rfl

theorem ofOption_orElse (a b : Option α) :
    (ofOption a).orElse (fun _ => ofOption b) = ofOption (a.or b) := by
  cases a <;> rfl

theorem bind_eq_done_iff {p : Printed α} {f : α → Printed β} {result : β} :
    (p >>= f) = done result ↔ ∃ a, p = done a ∧ f a = done result := by
  cases p <;> simp

theorem eq_done_of_orElse {p : Printed α} {alternative : Unit → Printed α} {result : α}
    (h : p.orElse alternative = done result) : p = done result ∨ alternative () = done result := by
  cases p with
  | done _ => exact .inl h
  | refused => exact .inr h
  | unfinished => cases h

theorem ofOption_eq_done_iff {answer : Option α} {result : α} :
    ofOption answer = done result ↔ answer = some result := by
  cases answer <;> simp

end Printed

/-- The letters of a word; no other text is one. -/
def printWord (text : String) : Printed (List Char) :=
  if !text.toList.isEmpty && text.toList.all isWordLetter then .done text.toList else .refused

/-- Undoes items until one is refused, and answers what is left with the texts of the items, the
item undone last in front. At most `bound` items are looked at, the refused one included. -/
def undoItems {T : Type} (undo : T → Printed (T × List Char)) :
    Nat → T → List (List Char) → Printed (T × List (List Char))
  | 0, _, _ => .unfinished
  | bound + 1, value, texts =>
    match undo value with
    | .refused => .done (value, texts)
    | .unfinished => .unfinished
    | .done (previous, text) => undoItems undo bound previous (text :: texts)

mutual

/-- The text of a value. -/
def Rule.print {T : Type} (bound : Nat) : Rule T → T → Printed (List Char)
  | .word, value => printWord value
  | .initial initializer, value =>
    if initializer.recognizesEmpty value then .done [] else .refused
  | .prefixed literal inner, value => do
    let text ← inner.print bound value
    return literal.toList ++ text
  | .reduce head tail, value => do
    let (left, text) ← tail.print bound value
    let headText ← head.print bound left
    return headText ++ text

/-- The value to the left, and the text of the node itself. -/
def Reduction.print {L R : Type} (bound : Nat) : Reduction L R → R → Printed (L × List Char)
  | .apply mapping, value => do
    let left ← .ofOption (mapping.backward value)
    return (left, [])
  | .put element fold, value => do
    let part ← .ofOption (fold.rightInverse value)
    let left ← .ofOption (fold.leftInverse value)
    let text ← element.print bound part
    return (left, text)
  | .prefixed literal inner, value => do
    let (left, text) ← inner.print bound value
    return (left, literal.toList ++ text)
  | .chain first second, value => do
    let (middle, secondText) ← second.print bound value
    let (left, firstText) ← first.print bound middle
    return (left, firstText ++ secondText)
  | .choice swapped first second, value =>
    if swapped then (second.print bound value).orElse fun _ => first.print bound value
    else (first.print bound value).orElse fun _ => second.print bound value
  | .optional inner, value => (inner.print bound value).orElse fun _ => .done (value, [])
  | .join separator item, value => do
    let (left, texts) ← undoItems (fun value => item.print bound value) bound value []
    return (left, separator.toList.intercalate texts)

end

/-- A rule with a bound on the items that printing a value undoes in one join. -/
structure Grammar (T : Type) where
  rule : Rule T
  bound : T → Nat

namespace Grammar

variable {T : Type}

/-- Reads a whole text. -/
def parse? (g : Grammar T) (text : String) : Option T := g.rule.parseAll? text

/-- Prints a value. -/
def print? (g : Grammar T) (value : T) : Option String :=
  (g.rule.print (g.bound value) value).result?.map String.ofList

end Grammar

end Biparse
