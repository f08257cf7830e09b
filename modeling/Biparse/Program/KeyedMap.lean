import Biparse.Elem.Basic
import Biparse.KeyedMap.Component
import Biparse.Program.Basic

/-!
# Programs over keyed maps

Registers hold keyed maps from elements to elements. Keys are compared as elements are, so a key
that holds a not-a-number is never found again.
-/

namespace Biparse.Program.OnKeyedMaps

/-- A register. -/
abbrev Register := KeyedMap Elem Elem

/-- An action, naming registers by their index. -/
inductive Action where
  | clear
  | supplyEmpty
  | copy (m : Nat)
  | insert (m : Nat) (key value : Elem)
  | remove (m : Nat) (key : Elem)
  | collect (bindings : List (Elem × Elem))
  | size (m : Nat)
  | isEmpty (m : Nat)
  | contains (m : Nat) (key : Elem)
  | get (m : Nat) (key : Elem)
  | keys (m : Nat)
  | inline (m : Nat)
  | indented (m : Nat)
  | same (m n : Nat)
  | putForward (key : Elem) (m : Nat) (value : Elem)
  | putLeft (key : Elem) (m : Nat)
  | putRight (key : Elem) (m : Nat)
  | singleForward (key value : Elem)
  | singleBackward (key : Elem) (m : Nat)
  | recognizesEmpty (m : Nat)
  | emptyDisplay
  | info (key : Elem)

/-- An answer. -/
inductive Answer where
  | noRegister
  | refused
  | truth (b : Bool)
  | count (n : Nat)
  | optional (e : Option Elem)
  | elements (items : List Elem)
  | text (s : String)
  | info (key : Elem) (displays : List String)
  | failed (e : Error)

/-- A new register. -/
def make (register : Register) : Effect Register Answer := .make register 0 (.truth true)

/-- A new register where an inverse gives one. -/
def makeOrRefuse : Option Register → Effect Register Answer
  | some register => make register
  | none => .answer .refused

variable [Glyphs]

/-- Performs an action. -/
def perform (bench : Bench Register) (context : Span) : Action → Effect Register Answer
  | .clear => make .empty
  | .supplyEmpty => make ((KeyedMap.initializer _ _).supply context)
  | .copy m => bench.withRegister m .noRegister make
  | .insert m key value => bench.withRegister m .noRegister fun m => make (m.insert key value)
  | .remove m key => bench.withRegister m .noRegister fun m => makeOrRefuse (m.remove? key)
  | .collect bindings => make (.ofList bindings)
  | .size m => bench.withRegister m .noRegister fun m => .answer (.count m.size)
  | .isEmpty m => bench.withRegister m .noRegister fun m => .answer (.truth m.isEmpty)
  | .contains m key => bench.withRegister m .noRegister fun m => .answer (.truth (m.contains key))
  | .get m key => bench.withRegister m .noRegister fun m => .answer (.optional (m.get? key))
  | .keys m => bench.withRegister m .noRegister fun m => .answer (.elements m.keys)
  | .inline m =>
    bench.withRegister m .noRegister fun m =>
      .answer (.text (m.outline Elem.outline Elem.outline).inline)
  | .indented m =>
    bench.withRegister m .noRegister fun m =>
      .answer (.text (m.outline Elem.outline Elem.outline).indented)
  | .same m n =>
    bench.withRegister m .noRegister fun m =>
      bench.withRegister n .noRegister fun n => .answer (.truth (m == n))
  | .putForward key m value =>
    bench.withRegister m .noRegister fun m =>
      make ((KeyedMap.putFold _ _ key).forward context m value)
  | .putLeft key m =>
    bench.withRegister m .noRegister fun m =>
      makeOrRefuse ((KeyedMap.putFold _ _ key).leftInverse m)
  | .putRight key m =>
    bench.withRegister m .noRegister fun m =>
      .answer (.optional ((KeyedMap.putFold _ _ key).rightInverse m))
  | .singleForward key value =>
    match (KeyedMap.singleton _ _ key).forward context value with
    | .error e => .answer (.failed e)
    | .ok m => make m
  | .singleBackward key m =>
    bench.withRegister m .noRegister fun m =>
      .answer (.optional ((KeyedMap.singleton _ _ key).backward m))
  | .recognizesEmpty m =>
    bench.withRegister m .noRegister fun m =>
      .answer (.truth ((KeyedMap.initializer _ _).recognizesEmpty m))
  | .emptyDisplay => .answer (.text KeyedMap.initializerDisplay)
  | .info key =>
    .answer (.info key [KeyedMap.putDisplay key.label, KeyedMap.singletonDisplay key.label])

/-- Runs steps from one register with the given bindings. -/
def run (bindings : List (Elem × Elem)) (steps : List (Step Action)) :
    Bench Register × List (Reply Register Answer) :=
  Bench.run perform ⟨[.ofList bindings], 0⟩ steps

end Biparse.Program.OnKeyedMaps
