import Biparse.Program.Basic
import Biparse.PropertyMap.Component
import Biparse.Value

/-!
# Programs over values

Registers hold handles of values. Allocating takes a cell that nothing has used before; a copy keeps
the cell. A value may be allocated around the handle of another, and the handle inside is then still
the same one.
-/

namespace Biparse.Program.OnValues

variable [Payloads]

/-- A register. -/
abbrev Register := Handle Value

/-- An action, naming registers by their index. -/
inductive Action where
  | allocate (v : Value)
  | copy (s : Nat)
  | wrap (s : Nat)
  | forward (v : Value)
  | is (s : Nat) (t : Ty)
  | downcast (s : Nat) (t : Ty)
  | backward (s : Nat) (t : Ty)
  | typeName (s : Nat)
  | outline (s : Nat)
  | sharesCell (s t : Nat)
  | map (entries : List (String × Nat)) (key : String) (t : Ty)

/-- What is asked of a map of registers. -/
structure MapAnswer where
  payload : Option Value
  outline : String
  single : Option Value
  shared : Option (List Bool)

/-- An answer. -/
inductive Answer where
  | noRegister
  | truth (b : Bool)
  | payload (p : Option Value)
  | text (s : String)
  | map (m : MapAnswer)
  | failed (e : Error)

/-- A new register in a fresh cell. -/
def allocate (next : Nat) (v : Value) : Effect Register Answer :=
  .make ⟨next, v⟩ 1 (.truth true)

/-- Values in cells from `next` on. -/
def allocateAll (next : Nat) : List Value → List Register
  | [] => []
  | v :: rest => ⟨next, v⟩ :: allocateAll (next + 1) rest

/-- The payload of a type, wrapped again to be shown. -/
def payload (t : Ty) (p : Option t.Carrier) : Answer := .payload (p.map (Value.of t))

/-- The registers that a list of entries names. -/
def registersOf (bench : Bench Register) :
    List (String × Nat) → Option (List (String × Register))
  | [] => some []
  | (key, s) :: rest => do
    let register ← bench.registers[s]?
    let rest ← registersOf bench rest
    return (key, register) :: rest

variable [Glyphs]

/-- What a map of copies of registers says about a key and a type. -/
def mapAnswer (bench : Bench Register) (m : PropertyMap Register) (key : String) (t : Ty) :
    MapAnswer where
  payload := (m.get? key >>= fun h => h.content.downcast? t).map (Value.of t)
  outline := (m.outline fun h => h.content.outline).inline
  single := ((PropertyMap.singleton Register key).backward m).map Handle.content
  shared := (m.get? key).map fun h => bench.registers.map fun register => register.sharesCell h

/-- Performs an action. -/
def perform (bench : Bench Register) (context : Span) : Action → Effect Register Answer
  | .allocate v => allocate bench.next v
  | .copy s => bench.withRegister s .noRegister fun h => .make h 0 (.truth true)
  | .wrap s => bench.withRegister s .noRegister fun h => allocate bench.next (.held h)
  | .forward v =>
    match (Value.erase v.ty).forward context v.payload with
    | .error e => .answer (.failed e)
    | .ok v => allocate bench.next v
  | .is s t => bench.withRegister s .noRegister fun h => .answer (.truth (h.content.is t))
  | .downcast s t =>
    bench.withRegister s .noRegister fun h => .answer (payload t (h.content.downcast? t))
  | .backward s t =>
    bench.withRegister s .noRegister fun h =>
      .answer (payload t ((Value.erase t).backward h.content))
  | .typeName s => bench.withRegister s .noRegister fun h => .answer (.text h.content.ty.name)
  | .outline s =>
    bench.withRegister s .noRegister fun h => .answer (.text h.content.outline.inline)
  | .sharesCell s t =>
    bench.withRegister s .noRegister fun a =>
      bench.withRegister t .noRegister fun b => .answer (.truth (a.sharesCell b))
  | .map entries key t =>
    match registersOf bench entries with
    | none => .answer .noRegister
    | some entries => .answer (.map (mapAnswer bench (.ofList entries) key t))

/-- Runs steps from registers with the given values. Cells below `next` belong to handles that the
values and steps bring along. -/
def run (next : Nat) (values : List Value) (steps : List (Step Action)) :
    Bench Register × List (Reply Register Answer) :=
  Bench.run perform ⟨allocateAll next values, next + values.length⟩ steps

end Biparse.Program.OnValues
