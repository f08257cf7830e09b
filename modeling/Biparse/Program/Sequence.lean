import Biparse.Elem.Basic
import Biparse.Json.Writer
import Biparse.Program.Basic
import Biparse.Sequence.Component
import Biparse.Sequence.Permutation
import Biparse.Sequence.Traced

/-!
# Programs over sequences

Registers hold sequences whose nodes can be told apart. An action that appends gives every element a
node of its own; copies and prefixes keep the nodes of the sequence they come from.
-/

namespace Biparse.Program.OnSequences

/-- A register. -/
abbrev Register := TracedSequence Elem

/-- An action, naming registers by their index. -/
inductive Action where
  | clear
  | supplyEmpty
  | copy (s : Nat)
  | append (s : Nat) (x : Elem)
  | collect (items : List Elem)
  | range (s : Nat) (first stop : Int)
  | splitLast (s : Nat)
  | size (s : Nat)
  | isEmpty (s : Nat)
  | last (s : Nat)
  | get (s : Nat) (index : Nat)
  | elements (s : Nat)
  | backwards (s : Nat)
  | ends (s : Nat) (pattern : List Side)
  | inline (s : Nat)
  | indented (s : Nat)
  | document (s : Nat)
  | same (s t : Nat)
  | sharesNode (s t : Nat)
  | appendForward (floor s : Nat) (x : Elem)
  | appendLeft (floor s : Nat)
  | appendRight (floor s : Nat)
  | appendInfo (floor : Nat)
  | pairForward (x y : Elem)
  | pairLeft (s : Nat)
  | pairRight (s : Nat)
  | singleForward (x : Elem)
  | singleBackward (s : Nat)
  | permuteForward (s : Nat) (order : List Nat)
  | permuteBackward (s : Nat) (order : List Nat)
  | recognizesEmpty (s : Nat)
  | emptyDisplay

/-- An answer. -/
inductive Answer where
  | noRegister
  | refused
  | truth (b : Bool)
  | count (n : Nat)
  | element (e : Elem)
  | optional (e : Option Elem)
  | elements (items : List Elem)
  | ends (size : Nat) (takes : List (Option Elem × Nat))
  | text (s : String)
  | info (n : Nat) (display : String)
  | failed (e : Error)
  | misconfigured (e : ConfigError)

/-- The integers from `first` up to but not including `stop`. -/
def integers (first stop : Int) : List Elem :=
  (List.range (stop - first).toNat).map fun (i : Nat) => .int (Int64.ofInt (first + i))

/-- The element of a node that an inverse gave back. -/
def untag (node : Option (Tagged Elem)) : Answer := .optional (node.map Tagged.item)

/-- A new register without a note to speak of. -/
def make (register : Register) (used : Nat) : Effect Register Answer :=
  .make register used (.truth true)

/-- A new register of elements in fresh nodes behind those of `s`. -/
def extend (next : Nat) (s : Register) (items : List Elem) : Effect Register Answer :=
  make (s.extend next items) items.length

/-- What a reordering gives, its elements in fresh nodes. -/
def reorder (next : Nat) (order : List Nat)
    (apply : Permutation → Except Answer Register) : Effect Register Answer :=
  match Permutation.ofOrder order with
  | .error e => .answer (.misconfigured e)
  | .ok p =>
    match apply p with
    | .error answer => .answer answer
    | .ok s => extend next .empty s.items

variable [Glyphs]

/-- Performs an action. -/
def perform (bench : Bench Register) (context : Span) :
    Action → Effect Register Answer
  | .clear => make .empty 0
  | .supplyEmpty => make ((Sequence.initializer _).supply context) 0
  | .copy s => bench.withRegister s .noRegister fun s => make s 0
  | .append s x => bench.withRegister s .noRegister fun s => make (s.push ⟨bench.next, x⟩) 1
  | .collect items => extend bench.next .empty items
  | .range s first stop =>
    bench.withRegister s .noRegister fun s => extend bench.next s (integers first stop)
  | .splitLast s =>
    bench.withRegister s .noRegister fun s =>
      match s.splitLast? with
      | none => .answer .refused
      | some (before, last) => .make before 0 (.element last.item)
  | .size s => bench.withRegister s .noRegister fun s => .answer (.count s.size)
  | .isEmpty s => bench.withRegister s .noRegister fun s => .answer (.truth s.isEmpty)
  | .last s => bench.withRegister s .noRegister fun s => .answer (untag s.last?)
  | .get s index => bench.withRegister s .noRegister fun s => .answer (untag (s.get? index))
  | .elements s => bench.withRegister s .noRegister fun s => .answer (.elements s.items)
  | .backwards s =>
    bench.withRegister s .noRegister fun s =>
      .answer (.elements (s.backwards.map Tagged.item))
  | .ends s pattern =>
    bench.withRegister s .noRegister fun s =>
      .answer (.ends s.size (takeEnds s.items pattern))
  | .inline s =>
    bench.withRegister s .noRegister fun s =>
      .answer (.text (s.outline fun node => node.item.outline).inline)
  | .indented s =>
    bench.withRegister s .noRegister fun s =>
      .answer (.text (s.outline fun node => node.item.outline).indented)
  | .document s =>
    bench.withRegister s .noRegister fun s =>
      .answer (.text (s.toJson fun node => node.item.toJson).write)
  | .same s t =>
    bench.withRegister s .noRegister fun s =>
      bench.withRegister t .noRegister fun t => .answer (.truth (s == t))
  | .sharesNode s t =>
    bench.withRegister s .noRegister fun s =>
      bench.withRegister t .noRegister fun t => .answer (.truth (s.sharesNode t))
  | .appendForward floor s x =>
    bench.withRegister s .noRegister fun s =>
      make ((Sequence.appendFold _ floor).forward context s ⟨bench.next, x⟩) 1
  | .appendLeft floor s =>
    bench.withRegister s .noRegister fun s =>
      match (Sequence.appendFold _ floor).leftInverse s with
      | none => .answer .refused
      | some before => make before 0
  | .appendRight floor s =>
    bench.withRegister s .noRegister fun s =>
      .answer (untag ((Sequence.appendFold _ floor).rightInverse s))
  | .appendInfo floor => .answer (.info floor Sequence.appendDisplay)
  | .pairForward x y =>
    make ((Sequence.pairFold _).forward context ⟨bench.next, x⟩ ⟨bench.next + 1, y⟩) 2
  | .pairLeft s =>
    bench.withRegister s .noRegister fun s =>
      .answer (untag ((Sequence.pairFold _).leftInverse s))
  | .pairRight s =>
    bench.withRegister s .noRegister fun s =>
      .answer (untag ((Sequence.pairFold _).rightInverse s))
  | .singleForward x =>
    match (Sequence.singleton _).forward context ⟨bench.next, x⟩ with
    | .error e => .answer (.failed e)
    | .ok s => make s 1
  | .singleBackward s =>
    bench.withRegister s .noRegister fun s =>
      .answer (untag ((Sequence.singleton _).backward s))
  | .permuteForward s order =>
    bench.withRegister s .noRegister fun s =>
      reorder bench.next order fun p => ((p.mapping _).forward context s).mapError .failed
  | .permuteBackward s order =>
    bench.withRegister s .noRegister fun s =>
      reorder bench.next order fun p => ((p.mapping _).backward s).elim (.error .refused) .ok
  | .recognizesEmpty s =>
    bench.withRegister s .noRegister fun s =>
      .answer (.truth ((Sequence.initializer _).recognizesEmpty s))
  | .emptyDisplay => .answer (.text Sequence.initializerDisplay)

/-- The bench that starts from one register with the given elements. -/
def start (items : List Elem) : Bench Register :=
  ⟨[TracedSequence.extend .empty 0 items], items.length⟩

/-- Runs steps from one register with the given elements. -/
def run (items : List Elem) (steps : List (Step Action)) :
    Bench Register × List (Reply Register Answer) :=
  (start items).run perform steps

end Biparse.Program.OnSequences
