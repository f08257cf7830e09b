import Biparse.Proofs.Record.Bijection
import Biparse.Proofs.Text.ByteOrder

/-!
# Registering constructors and properties

A shape comes from registration calls in any order. Each call is about one place: the constructor of
a path, or the accessor of a name. It replaces what stands in that place and leaves all others alone
(`constructor?_register`, `accessor?_register`), so after any calls a place holds what the last call
about it has put there.

Builders and creators look all they need up once, when they are made. A creator blames the first
name of its list that no call has registered; a missing constructor is blamed only where there is no
such name (`RecordCreator.new_eq_error_iff`). From then on they build by running those setters over
the bindings of a map, from the first to the last (`RecordBuilder.build_eq_foldlM`).
-/

namespace Biparse

section AnyPayloads

variable [Payloads]

/-- A call that registers a constructor or the accessor of a property. Constructors and setters that
take everything have calls of their own. -/
inductive Registration (R : Type) where
  | plain (make : R)
  | fallible (make : Except String R)
  | contextual (make : Span → R)
  | fallibleContextual (make : Span → Except String R)
  | field (slot : OptionalField R)
  | property (name : String) (accessor : Accessor R)

namespace Registration

variable {R α : Type}

/-- The constructor that a call registers for a path, if it is about that path. -/
def constructor? (withContext : Bool) : Registration R → Option (Span → Except String R)
  | plain make => if withContext then none else some fun _ => .ok make
  | fallible make => if withContext then none else some fun _ => make
  | contextual make => if withContext then some fun context => .ok (make context) else none
  | fallibleContextual make => if withContext then some make else none
  | field _ => none
  | property .. => none

/-- The name that a call is about, if it is about one, with the accessor that it registers. -/
def property? : Registration R → Option (String × Accessor R)
  | field slot => some (slot.name, slot.accessor)
  | property name accessor => some (name, accessor)
  | _ => none

/-- The accessor that a call registers for a name, if it is about that name. -/
def accessor? (name : String) (call : Registration R) : Option (Accessor R) :=
  call.property?.bind fun named => if named.1 = name then some named.2 else none

/-- What the last of the calls about a place has registered. -/
def last? (place : Registration R → Option α) (calls : List (Registration R)) : Option α :=
  (calls.filterMap place).getLast?

/-- Some call is about the name. -/
def Names (calls : List (Registration R)) (name : String) : Prop :=
  ∃ call ∈ calls, ∃ accessor, call.property? = some (name, accessor)

/-- Some call is about the constructor of the path. -/
def Constructs (calls : List (Registration R)) (withContext : Bool) : Prop :=
  ∃ call ∈ calls, ∃ make, call.constructor? withContext = some make

theorem last?_concat (place : Registration R → Option α) (calls : List (Registration R))
    (call : Registration R) :
    last? place (calls ++ [call]) = (place call).or (last? place calls) := by
  rw [last?, List.filterMap_append, List.getLast?_append]
  cases h : place call <;> simp [h, last?]

/-- A call that is not about a place can be left out. -/
theorem last?_skip {place : Registration R → Option α} {call : Registration R}
    (h : place call = none) (before after : List (Registration R)) :
    last? place (before ++ call :: after) = last? place (before ++ after) := by
  simp [last?, List.filterMap_append, h]

theorem exists_last?_iff {place : Registration R → Option α} {calls : List (Registration R)} :
    (∃ x, last? place calls = some x) ↔ ∃ call ∈ calls, ∃ x, place call = some x := by
  rw [← Option.isSome_iff_exists, last?, List.getLast?_isSome, ne_eq, List.filterMap_eq_nil_iff]
  simp only [not_forall, ← ne_eq, Option.ne_none_iff_exists', exists_prop]

theorem accessor?_eq_some_iff {name : String} {call : Registration R} {accessor : Accessor R} :
    call.accessor? name = some accessor ↔ call.property? = some (name, accessor) := by
  rw [accessor?, Option.bind_eq_some_iff]
  constructor
  · rintro ⟨⟨own, accessor⟩, hcall, hname⟩
    obtain ⟨rfl, ⟨⟩⟩ := Option.ite_none_right_eq_some.mp hname
    exact hcall
  · intro hcall
    exact ⟨_, hcall, if_pos rfl⟩

end Registration

namespace RecordShape

variable {R : Type} {calls : List (Registration R)}

/-- The shape after one more call. -/
def register (shape : RecordShape R) : Registration R → RecordShape R
  | .plain make => shape.withPlain (.ok make)
  | .fallible make => shape.withPlain make
  | .contextual make => shape.withContextual fun context => .ok (make context)
  | .fallibleContextual make => shape.withContextual make
  | .field slot => shape.withProperty slot.name slot.accessor
  | .property name accessor => shape.withProperty name accessor

/-- The shape that calls make of one without constructors and properties. -/
def ofRegistrations (name : String) (calls : List (Registration R)) : RecordShape R :=
  calls.foldl register (.new name)

/-- The constructor of a path, if the shape knows one. -/
def constructor? (shape : RecordShape R) (withContext : Bool) :
    Option (Span → Except String R) :=
  if withContext then shape.contextual else shape.plain.map fun make _ => make

theorem constructor_eq (shape : RecordShape R) (withContext : Bool) :
    shape.constructor withContext = match shape.constructor? withContext with
      | some make => .ok make
      | none => .error (.missingConstructor shape.name withContext) := by
  unfold constructor constructor?
  cases withContext <;> cases shape.plain <;> cases shape.contextual <;> rfl

/-! ## One call -/

theorem name_register (shape : RecordShape R) (call : Registration R) :
    (shape.register call).name = shape.name := by
  cases call <;> rfl

theorem constructor?_register (shape : RecordShape R) (call : Registration R) (withContext : Bool) :
    (shape.register call).constructor? withContext
      = (call.constructor? withContext).or (shape.constructor? withContext) := by
  cases call <;> cases withContext <;>
    simp [register, constructor?, Registration.constructor?, withPlain, withContextual,
      withProperty]

theorem accessor?_register (shape : RecordShape R) (call : Registration R) (p : String) :
    (shape.register call).accessor? p = (call.accessor? p).or (shape.accessor? p) := by
  have hwritten (name : String) (accessor : Accessor R) :
      (shape.withProperty name accessor).accessor? p
        = (if name = p then some accessor else none).or (shape.accessor? p) := by
    rw [accessor?, withProperty, SortedMap.get?_insert]
    by_cases hp : p = name
    · simp [hp]
    · simp [hp, Ne.symm hp, accessor?]
  cases call with
  | field slot => exact hwritten slot.name slot.accessor
  | property name accessor => exact hwritten name accessor
  | _ => rfl

/-! ## All calls -/

theorem ofRegistrations_concat (name : String) (calls : List (Registration R))
    (call : Registration R) :
    ofRegistrations name (calls ++ [call]) = (ofRegistrations name calls).register call := by
  simp [ofRegistrations]

theorem name_ofRegistrations (name : String) (calls : List (Registration R)) :
    (ofRegistrations name calls).name = name := by
  induction calls using List.reverseRecOn with
  | nil => rfl
  | append_singleton calls call ih => rw [ofRegistrations_concat, name_register, ih]

theorem constructor?_ofRegistrations (name : String) (calls : List (Registration R))
    (withContext : Bool) :
    (ofRegistrations name calls).constructor? withContext
      = Registration.last? (Registration.constructor? withContext) calls := by
  induction calls using List.reverseRecOn with
  | nil => cases withContext <;> rfl
  | append_singleton calls call ih =>
      rw [ofRegistrations_concat, constructor?_register, Registration.last?_concat, ih]

theorem accessor?_ofRegistrations (name : String) (calls : List (Registration R)) (p : String) :
    (ofRegistrations name calls).accessor? p
      = Registration.last? (Registration.accessor? p) calls := by
  induction calls using List.reverseRecOn with
  | nil => rfl
  | append_singleton calls call ih =>
      rw [ofRegistrations_concat, accessor?_register, Registration.last?_concat, ih]

theorem exists_constructor_iff (name : String) {withContext : Bool} :
    (∃ make, (ofRegistrations name calls).constructor withContext = .ok make) ↔
      Registration.Constructs calls withContext := by
  rw [Registration.Constructs, ← Registration.exists_last?_iff, ← constructor?_ofRegistrations name]
  simp only [constructor_eq]
  cases (ofRegistrations name calls).constructor? withContext <;> simp

theorem exists_accessor?_iff (name : String) {p : String} :
    (∃ accessor, (ofRegistrations name calls).accessor? p = some accessor) ↔
      Registration.Names calls p := by
  simp only [accessor?_ofRegistrations, Registration.exists_last?_iff,
    Registration.accessor?_eq_some_iff, Registration.Names]

theorem properties_increasing (shape : RecordShape R) :
    (shape.properties.map LineIndex.bytes).Pairwise (· < ·) :=
  List.pairwise_map.mpr (shape.accessors.sorted.imp Utf8.bytes_lt_bytes)

theorem nodup_properties (shape : RecordShape R) : shape.properties.Nodup :=
  shape.accessors.sorted.imp Std.ne_of_lt

/-- What a shape knows after registration calls: in each place what the last call about it has
registered, wherever calls about other places have come in between. -/
structure Registers (shape : RecordShape R) (name : String) (calls : List (Registration R)) :
    Prop where
  constructor_eq : ∀ withContext, shape.constructor withContext =
    match Registration.last? (Registration.constructor? withContext) calls with
      | some make => .ok make
      | none => .error (.missingConstructor name withContext)
  constructor_skip : ∀ withContext before call after, calls = before ++ call :: after →
    call.constructor? withContext = none → shape.constructor withContext
      = (ofRegistrations name (before ++ after)).constructor withContext
  accessor?_eq : ∀ p, shape.accessor? p = Registration.last? (Registration.accessor? p) calls
  mem_properties : ∀ p, p ∈ shape.properties ↔ Registration.Names calls p
  increasing : (shape.properties.map LineIndex.bytes).Pairwise (· < ·)
  once : shape.properties.Nodup

theorem constructor_ofRegistrations (name : String) (calls : List (Registration R))
    (withContext : Bool) :
    (ofRegistrations name calls).constructor withContext =
      match Registration.last? (Registration.constructor? withContext) calls with
        | some make => .ok make
        | none => .error (.missingConstructor name withContext) := by
  rw [constructor_eq, constructor?_ofRegistrations, name_ofRegistrations]

theorem registers_ofRegistrations (name : String) (calls : List (Registration R)) :
    (ofRegistrations name calls).Registers name calls where
  constructor_eq := constructor_ofRegistrations name calls
  constructor_skip withContext before call after hcalls hcall := by
    rw [hcalls, constructor_ofRegistrations, constructor_ofRegistrations,
      Registration.last?_skip hcall]
  accessor?_eq := accessor?_ofRegistrations name calls
  mem_properties p := mem_properties_iff.trans (exists_accessor?_iff name)
  increasing := properties_increasing _
  once := nodup_properties _

end RecordShape

/-! ## Builders and creators -/

section

variable {R : Type} {shape : RecordShape R} {listed : List String} {config : BuilderConfig}
  {e : ConfigError}

theorem RecordBuilder.restricted_eq_error_iff {keep : String → Bool} :
    RecordBuilder.restricted shape config keep = .error e ↔
      shape.constructor config.withContext = .error e := by
  unfold RecordBuilder.restricted
  cases shape.constructor config.withContext <;> simp [Except.map]

namespace RecordCreator

/-- A list of names is blamed for the first of them that is not registered. -/
theorem accessors_eq_error_iff :
    accessors shape listed = .error e ↔
      ∃ p, listed.find? (fun p => (shape.accessor? p).isNone) = some p
        ∧ e = .missingAccessor shape.name p := by
  induction listed with
  | nil => simp [accessors]
  | cons name rest ih =>
      rw [accessors, List.find?_cons]
      cases haccessor : shape.accessor? name with
      | none => simp [eq_comm]
      | some accessor =>
          rw [Option.isNone_some, ← ih]
          cases accessors shape rest <;> simp [Except.map]

theorem find?_isNone_eq_some_iff {p : String} :
    listed.find? (fun p => (shape.accessor? p).isNone) = some p ↔
      ∃ before after, listed = before ++ p :: after
        ∧ (∀ q ∈ before, ∃ accessor, shape.accessor? q = some accessor)
        ∧ shape.accessor? p = none := by
  simp only [List.find?_eq_some_iff_append, Option.isNone_iff_eq_none, Bool.not_eq_true',
    Option.isNone_eq_false_iff, Option.isSome_iff_exists]
  constructor
  · rintro ⟨hp, before, after, hlisted, hbefore⟩
    exact ⟨before, after, hlisted, hbefore, hp⟩
  · rintro ⟨before, after, hlisted, hbefore, hp⟩
    exact ⟨hp, before, after, hlisted, hbefore⟩

/-- The constructor is only to blame where every name has an accessor. -/
theorem new_eq_error_iff :
    RecordCreator.new shape listed config = .error e ↔
      (∃ before p after, listed = before ++ p :: after
          ∧ (∀ q ∈ before, ∃ accessor, shape.accessor? q = some accessor)
          ∧ shape.accessor? p = none ∧ e = .missingAccessor shape.name p)
        ∨ (∀ p ∈ listed, ∃ accessor, shape.accessor? p = some accessor)
          ∧ shape.constructor config.withContext = .error e := by
  unfold RecordCreator.new
  rw [bind_eq_error_iff, accessors_eq_error_iff]
  refine or_congr ⟨?_, ?_⟩ ⟨?_, ?_⟩
  · rintro ⟨p, hp, rfl⟩
    obtain ⟨before, after, hlisted, hbefore, hp⟩ := find?_isNone_eq_some_iff.mp hp
    exact ⟨before, p, after, hlisted, hbefore, hp, rfl⟩
  · rintro ⟨before, p, after, hlisted, hbefore, hp, rfl⟩
    exact ⟨p, find?_isNone_eq_some_iff.mpr ⟨before, after, hlisted, hbefore, hp⟩, rfl⟩
  · rintro ⟨getters, haccessors, h⟩
    rcases bind_eq_error_iff.mp h with hbuilder | ⟨builder, -, h⟩
    · exact ⟨registered_of_accessors haccessors, RecordBuilder.restricted_eq_error_iff.mp hbuilder⟩
    · cases h
  · rintro ⟨hregistered, hmake⟩
    refine ⟨_, accessors_eq_ok hregistered, bind_eq_error_iff.mpr (.inl ?_)⟩
    exact RecordBuilder.restricted_eq_error_iff.mpr hmake

end RecordCreator

end

/-! ## One write after another -/

/-- Writes a binding to a record by the accessor of its name. A name without one is refused or left
out, as the policy says. -/
def writeBinding {R : Type} (accessor? : String → Option (Accessor R)) (unknown : UnknownPolicy)
    (name : String) (record : R) (binding : String × Value) : Except BuildError R :=
  match accessor? binding.1 with
  | some accessor => (accessor.write record binding.2).mapError (·.toBuildError name binding.1)
  | none =>
    match unknown with
    | .reject => .error (.unknownProperty name binding.1)
    | .skip => .ok record

/-- What is written is what the setters write, binding by binding. -/
theorem RecordBuilder.writeAll_eq_foldlM {R : Type} (builder : RecordBuilder R) (context : Span)
    (record : R) (entries : List (String × Value)) :
    (builder.writeAll context record entries).map Prod.fst
      = entries.foldlM (writeBinding builder.setters.get? builder.unknown builder.record)
          record := by
  induction entries generalizing record with
  | nil => rfl
  | cons entry rest ih =>
      obtain ⟨key, value⟩ := entry
      rw [writeAll, List.foldlM_cons, writeBinding.eq_def _ _ _ _ (key, value)]
      cases builder.setters.get? key with
      | some accessor =>
          cases hwrite : accessor.write record value with
          | error failure =>
              simp only [hwrite]
              rfl
          | ok record' =>
              simp only [hwrite]
              exact ih record'
      | none =>
          cases hunknown : builder.unknown with
          | reject => rfl
          | skip =>
              -- a warning in front changes nothing in the record
              have hrest := ih record
              rw [hunknown] at hrest
              refine Eq.trans ?_ hrest
              cases builder.writeAll context record rest <;> rfl

theorem RecordBuilder.build_eq_foldlM {R : Type} (builder : RecordBuilder R) (context : Span)
    (m : PropertyMap Value) : builder.build context m
      = (builder.construct context).mapError (.constructor builder.record) >>= fun record =>
          m.entries.foldlM (writeBinding builder.setters.get? builder.unknown builder.record)
            record := by
  rw [build, buildWithWarnings]
  cases builder.construct context with
  | error complaint => rfl
  | ok record => exact builder.writeAll_eq_foldlM context record m.entries

/-! ## Made from what calls have registered -/

/-- The accessor last registered for a name, if the name is kept. -/
def Registration.kept? {R : Type} (calls : List (Registration R)) (keep : String → Bool)
    (p : String) : Option (Accessor R) :=
  if keep p then last? (accessor? p) calls else none

/-- A builder works with the constructor last registered for its path and with the accessors last
registered for the names it keeps: it builds a map by letting them write its bindings, one after
another, to the record constructed. -/
structure RecordBuilder.WorksWith {R : Type} (builder : RecordBuilder R) (name : String)
    (calls : List (Registration R)) (config : BuilderConfig) (keep : String → Bool) : Prop where
  construct : Registration.last? (Registration.constructor? config.withContext) calls
    = some builder.construct
  setters : ∀ p, builder.setters.get? p = Registration.kept? calls keep p
  build : ∀ context m, builder.build context m
    = (builder.construct context).mapError (.constructor name) >>= fun record =>
        m.entries.foldlM (writeBinding (Registration.kept? calls keep) config.unknown name) record

/-- A creator sets the listed names and reads them, by the accessors last registered. -/
structure RecordCreator.WorksWith {R : Type} (creator : RecordCreator R) (name : String)
    (calls : List (Registration R)) (config : BuilderConfig) (listed : List String) : Prop where
  builder : creator.builder.WorksWith name calls config listed.contains
  properties : creator.properties = listed
  decompose : ∀ record, creator.decompose record = .ofList (listed.filterMap fun p =>
    ((Registration.last? (Registration.accessor? p) calls).bind fun accessor =>
      accessor.read record).map (p, ·))

section

variable {R : Type} {name : String} {calls : List (Registration R)} {withContext : Bool}
  {listed : List String} {config : BuilderConfig} {e : ConfigError}

theorem RecordShape.constructor_ofRegistrations_eq_ok_iff {make : Span → Except String R} :
    (RecordShape.ofRegistrations name calls).constructor withContext = .ok make ↔
      Registration.last? (Registration.constructor? withContext) calls = some make := by
  rw [constructor_ofRegistrations]
  cases Registration.last? (Registration.constructor? withContext) calls <;> simp

theorem RecordShape.constructor_ofRegistrations_eq_error_iff :
    (RecordShape.ofRegistrations name calls).constructor withContext = .error e ↔
      ¬ Registration.Constructs calls withContext ∧ e = .missingConstructor name withContext := by
  rw [Registration.Constructs, ← Registration.exists_last?_iff, constructor_ofRegistrations]
  cases Registration.last? (Registration.constructor? withContext) calls <;> simp [eq_comm]

theorem RecordBuilder.worksWith_of_restricted {keep : String → Bool} {builder : RecordBuilder R}
    (h : RecordBuilder.restricted (.ofRegistrations name calls) config keep = .ok builder) :
    builder.WorksWith name calls config keep := by
  obtain ⟨make, hmake, rfl⟩ := RecordBuilder.restricted_eq_ok_iff.mp h
  have hsetters : ((RecordShape.ofRegistrations name calls).accessors.filterKeys keep).get?
      = Registration.kept? calls keep := by
    funext p
    rw [SortedMap.get?_filterKeys, Registration.kept?, ← RecordShape.accessor?_ofRegistrations name]
    rfl
  refine ⟨RecordShape.constructor_ofRegistrations_eq_ok_iff.mp hmake, congrFun hsetters,
    fun context m => ?_⟩
  rw [build_eq_foldlM, hsetters, RecordShape.name_ofRegistrations]

theorem RecordBuilder.new_ofRegistrations_eq_error_iff :
    RecordBuilder.new (.ofRegistrations name calls) config = .error e ↔
      ¬ Registration.Constructs calls config.withContext
        ∧ e = .missingConstructor name config.withContext :=
  restricted_eq_error_iff.trans RecordShape.constructor_ofRegistrations_eq_error_iff

theorem RecordCreator.exists_new_ofRegistrations_iff :
    (∃ creator, RecordCreator.new (.ofRegistrations name calls) listed config = .ok creator) ↔
      (∀ p ∈ listed, Registration.Names calls p)
        ∧ Registration.Constructs calls config.withContext := by
  simp only [new_eq_ok_iff, RecordShape.exists_accessor?_iff,
    ← RecordShape.exists_constructor_iff name]
  constructor
  · rintro ⟨creator, hnames, make, hmake, -⟩
    exact ⟨hnames, make, hmake⟩
  · rintro ⟨hnames, make, hmake⟩
    exact ⟨_, hnames, make, hmake, rfl⟩

theorem RecordCreator.new_ofRegistrations_eq_error_iff :
    RecordCreator.new (.ofRegistrations name calls) listed config = .error e ↔
      (∃ before p after, listed = before ++ p :: after
          ∧ (∀ q ∈ before, Registration.Names calls q)
          ∧ ¬ Registration.Names calls p ∧ e = .missingAccessor name p)
        ∨ (∀ p ∈ listed, Registration.Names calls p)
          ∧ ¬ Registration.Constructs calls config.withContext
          ∧ e = .missingConstructor name config.withContext := by
  simp only [new_eq_error_iff, RecordShape.constructor_ofRegistrations_eq_error_iff,
    RecordShape.name_ofRegistrations, ← RecordShape.exists_accessor?_iff name,
    ← Option.ne_none_iff_exists', ne_eq, not_not]

theorem RecordCreator.worksWith_of_new {creator : RecordCreator R}
    (h : RecordCreator.new (.ofRegistrations name calls) listed config = .ok creator) :
    creator.WorksWith name calls config listed := by
  obtain ⟨hregistered, make, hmake, rfl⟩ := new_eq_ok_iff.mp h
  refine ⟨RecordBuilder.worksWith_of_restricted (RecordBuilder.restricted_eq_ok_iff.mpr
    ⟨make, hmake, rfl⟩), properties_ofListed hregistered make config.unknown, fun record => ?_⟩
  rw [decompose_ofListed]
  simp only [RecordShape.read?, RecordShape.accessor?_ofRegistrations]

end

/-- Registration calls in any order make a shape that knows in each place what the last call about
it has registered. A builder needs the constructor of its path and nothing else. A creator needs
every listed name as well, and the first one that no call is about is to blame, whether or not the
constructor is missing too. What is made constructs, sets and reads by what was last registered: to
build a map is to write its bindings one by one with those accessors. -/
theorem registrations_resolved {R : Type} (name : String) (calls : List (Registration R)) :
    (RecordShape.ofRegistrations name calls).Registers name calls
      ∧ ∀ config : BuilderConfig,
        (∀ e, RecordBuilder.new (.ofRegistrations name calls) config = .error e ↔
          ¬ Registration.Constructs calls config.withContext
            ∧ e = .missingConstructor name config.withContext)
        ∧ (∀ builder, RecordBuilder.new (.ofRegistrations name calls) config = .ok builder →
          builder.WorksWith name calls config fun _ => true)
        ∧ ∀ listed,
          ((∃ creator,
              RecordCreator.new (.ofRegistrations name calls) listed config = .ok creator) ↔
            (∀ p ∈ listed, Registration.Names calls p)
              ∧ Registration.Constructs calls config.withContext)
          ∧ (∀ e, RecordCreator.new (.ofRegistrations name calls) listed config = .error e ↔
            (∃ before p after, listed = before ++ p :: after
                ∧ (∀ q ∈ before, Registration.Names calls q)
                ∧ ¬ Registration.Names calls p ∧ e = .missingAccessor name p)
              ∨ (∀ p ∈ listed, Registration.Names calls p)
                ∧ ¬ Registration.Constructs calls config.withContext
                ∧ e = .missingConstructor name config.withContext)
          ∧ ∀ creator,
            RecordCreator.new (.ofRegistrations name calls) listed config = .ok creator →
              creator.WorksWith name calls config listed :=
  ⟨RecordShape.registers_ofRegistrations name calls, fun _ =>
    ⟨fun _ => RecordBuilder.new_ofRegistrations_eq_error_iff,
      fun _ => RecordBuilder.worksWith_of_restricted,
      fun _ => ⟨RecordCreator.exists_new_ofRegistrations_iff,
        fun _ => RecordCreator.new_ofRegistrations_eq_error_iff,
        fun _ => RecordCreator.worksWith_of_new⟩⟩⟩

end AnyPayloads

open scoped Payloads in
/-- Fields registered out of order and twice, and two plain constructors, of which the later one
stands. The name nobody has registered is blamed first, and then the path without a constructor.
Both fields are written to the record that the later constructor makes. -/
theorem registrations_resolved_items :
    ∃ calls : List (Registration Item),
      calls = [.field Item.fieldB, .fallible (.error "no"), .field Item.fieldA, .plain Item.blank,
          .field Item.fieldB]
        ∧ (RecordShape.ofRegistrations "Item" calls).properties = ["a", "b"]
        ∧ (RecordShape.ofRegistrations "Item" calls).constructor false
          = .ok (fun _ => .ok Item.blank)
        ∧ RecordCreator.new (.ofRegistrations "Item" calls) ["b", "z", "a", "y"] ⟨true, .reject⟩
          = .error (.missingAccessor "Item" "z")
        ∧ RecordCreator.new (.ofRegistrations "Item" calls) ["b"] ⟨true, .reject⟩
          = .error (.missingConstructor "Item" true)
        ∧ ∃ creator, RecordCreator.new (.ofRegistrations "Item" calls) ["b", "a"] {} = .ok creator
          ∧ creator.properties = ["b", "a"]
          ∧ creator.builder.build ⟨0, 4⟩ (.ofList [("b", .string "y"), ("a", .string "x")])
            = .ok ⟨some "x", some "y"⟩ := by
  obtain ⟨calls, hcalls⟩ : ∃ calls : List (Registration Item),
      calls = [.field Item.fieldB, .fallible (.error "no"), .field Item.fieldA, .plain Item.blank,
        .field Item.fieldB] := ⟨_, rfl⟩
  obtain ⟨hshape, hmade⟩ := registrations_resolved "Item" calls
  have hproperties : (RecordShape.ofRegistrations "Item" calls).properties = ["a", "b"] := by
    rw [hcalls]
    rfl
  have hnames (p : String) : Registration.Names calls p ↔ p = "a" ∨ p = "b" := by
    rw [← hshape.mem_properties, hproperties]
    simp
  have hpath : ¬ Registration.Constructs calls true := by
    rintro ⟨call, hcall, make, hmake⟩
    simp only [hcalls, List.mem_cons, List.not_mem_nil, or_false] at hcall
    rcases hcall with rfl | rfl | rfl | rfl | rfl <;> cases hmake
  have hplain : Registration.Constructs calls false :=
    ⟨.plain Item.blank, by simp [hcalls], _, rfl⟩
  obtain ⟨-, -, hlisted⟩ := hmade ⟨true, .reject⟩
  obtain ⟨-, -, hlisted'⟩ := hmade {}
  refine ⟨calls, hcalls, hproperties, ?_, ?_, ?_, ?_⟩
  · rw [hshape.constructor_eq, hcalls]
    rfl
  · exact ((hlisted _).2.1 _).mpr (.inl ⟨["b"], "z", ["a", "y"], rfl, by simp [hnames],
      by simp [hnames], rfl⟩)
  · exact ((hlisted _).2.1 _).mpr (.inr ⟨by simp [hnames], hpath, rfl⟩)
  · obtain ⟨creator, hnew⟩ := (hlisted' ["b", "a"]).1.mpr ⟨by simp [hnames], hplain⟩
    have hworks := (hlisted' ["b", "a"]).2.2 creator hnew
    have hconstruct := hworks.builder.construct
    rw [hcalls] at hconstruct
    refine ⟨creator, hnew, hworks.properties, ?_⟩
    rw [hworks.builder.build, ← Option.some.inj hconstruct, hcalls]
    rfl

end Biparse
