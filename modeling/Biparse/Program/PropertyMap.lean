import Biparse.Elem.Basic
import Biparse.Program.Basic
import Biparse.PropertyMap.Component

/-!
# Programs over property maps

Registers hold property maps of elements. Maps never change, so a copy is the map itself, and the
inverse of a put is a new register beside the one it was asked of.
-/

namespace Biparse.Program.OnPropertyMaps

/-- A register. -/
abbrev Register := PropertyMap Elem

/-- An action, naming registers by their index. -/
inductive Action where
  | clear
  | supplyEmpty
  | copy (m : Nat)
  | insert (m : Nat) (key : String) (value : Elem)
  | erase (m : Nat) (key : String)
  | collect (bindings : List (String × Elem))
  | size (m : Nat)
  | isEmpty (m : Nat)
  | contains (m : Nat) (key : String)
  | get (m : Nat) (key : String)
  | keys (m : Nat)
  | inline (m : Nat)
  | indented (m : Nat)
  | same (m n : Nat)
  | putForward (key : String) (m : Nat) (value : Elem)
  | putLeft (key : String) (m : Nat)
  | putRight (key : String) (m : Nat)
  | putInfo (key : String)
  | singleForward (key : String) (value : Elem)
  | singleBackward (key : String) (m : Nat)
  | recognizesEmpty (m : Nat)
  | emptyDisplay

/-- An answer. -/
inductive Answer where
  | noRegister
  | refused
  | truth (b : Bool)
  | count (n : Nat)
  | optional (e : Option Elem)
  | texts (names : List String)
  | text (s : String)
  | failed (e : Error)

/-- A new register. -/
def make (register : Register) : Effect Register Answer := .make register 0 (.truth true)

variable [Glyphs]

/-- Performs an action. -/
def perform (bench : Bench Register) (context : Span) : Action → Effect Register Answer
  | .clear => make .empty
  | .supplyEmpty => make ((PropertyMap.initializer _).supply context)
  | .copy m => bench.withRegister m .noRegister make
  | .insert m key value => bench.withRegister m .noRegister fun m => make (m.insert key value)
  | .erase m key => bench.withRegister m .noRegister fun m => make (m.erase key)
  | .collect bindings => make (.ofList bindings)
  | .size m => bench.withRegister m .noRegister fun m => .answer (.count m.size)
  | .isEmpty m => bench.withRegister m .noRegister fun m => .answer (.truth m.isEmpty)
  | .contains m key => bench.withRegister m .noRegister fun m => .answer (.truth (m.contains key))
  | .get m key => bench.withRegister m .noRegister fun m => .answer (.optional (m.get? key))
  | .keys m => bench.withRegister m .noRegister fun m => .answer (.texts m.keys)
  | .inline m =>
    bench.withRegister m .noRegister fun m => .answer (.text (m.outline Elem.outline).inline)
  | .indented m =>
    bench.withRegister m .noRegister fun m => .answer (.text (m.outline Elem.outline).indented)
  | .same m n =>
    bench.withRegister m .noRegister fun m =>
      bench.withRegister n .noRegister fun n => .answer (.truth (m == n))
  | .putForward key m value =>
    bench.withRegister m .noRegister fun m =>
      make ((PropertyMap.putFold _ key).forward context m value)
  | .putLeft key m =>
    bench.withRegister m .noRegister fun m =>
      match (PropertyMap.putFold _ key).leftInverse m with
      | none => .answer .refused
      | some rest => make rest
  | .putRight key m =>
    bench.withRegister m .noRegister fun m =>
      .answer (.optional ((PropertyMap.putFold _ key).rightInverse m))
  | .putInfo key => .answer (.texts [key, PropertyMap.putDisplay key])
  | .singleForward key value =>
    match (PropertyMap.singleton _ key).forward context value with
    | .error e => .answer (.failed e)
    | .ok m => make m
  | .singleBackward key m =>
    bench.withRegister m .noRegister fun m =>
      .answer (.optional ((PropertyMap.singleton _ key).backward m))
  | .recognizesEmpty m =>
    bench.withRegister m .noRegister fun m =>
      .answer (.truth ((PropertyMap.initializer _).recognizesEmpty m))
  | .emptyDisplay => .answer (.text PropertyMap.initializerDisplay)

/-- Runs steps from one register with the given bindings. -/
def run (bindings : List (String × Elem)) (steps : List (Step Action)) :
    Bench Register × List (Reply Register Answer) :=
  Bench.run perform ⟨[.ofList bindings], 0⟩ steps

end Biparse.Program.OnPropertyMaps
