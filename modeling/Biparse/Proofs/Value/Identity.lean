import Biparse.Program.Value
import Biparse.Proofs.Program.Registers
import Biparse.Proofs.PropertyMap.Recency
import Mathlib.Data.List.Nodup

/-!
# Value identity and exact types over whole runs

Values are shared by copying handles. Which allocation a register goes back to can be said without
handles, by following the program (`origins`): a value was given to the step that allocated it, or
that step wrapped a register, whose own origin is then the origin of what is inside.

Two registers share a cell exactly when they go back to the same allocating step, and then they hold
the same; a register is read as exactly one type, that of its origin; and inside a wrapped value,
however deep, is again a value that shares the cells of the registers of its origin
(`values_have_one_origin`). What carries this is a table with the origin of every cell of the run.
It only grows at its end, and no two of its entries have one step (`Accounted`); a handle is
determined by its origin (`Held.unique`). The step lemma (`Accounted.step`) is one case for each
action (`perform_accounts`).
-/

namespace Biparse

variable [Payloads]

/-- A payload that is wrapped again is the value it was taken from. -/
theorem Value.map_of_downcast? (t : Ty) (v : Value) :
    (v.downcast? t).map (Value.of t) = if v.ty = t then some v else none := by
  by_cases ht : v.ty = t
  · obtain ⟨payload, rfl⟩ := Value.ty_eq_iff.mp ht
    rw [if_pos ht, Value.downcast?_of, Option.map_some]
  · rw [if_neg ht, Value.downcast?_of_ty_ne ht, Option.map_none]

namespace Program.OnValues

/-! ## Where values come from -/

/-- How the value of a register was allocated: in which step, with which value or around what. -/
inductive Origin where
  | given (step : Nat) (v : Value)
  | around (step : Nat) (inner : Origin)

namespace Origin

def step : Origin → Nat
  | given step _ => step
  | around step _ => step

def ty : Origin → Ty
  | given _ v => v.ty
  | around _ _ => .held

/-- The origin of what is inside, after taking off a number of wrappings. -/
def inside? : Nat → Origin → Option Origin
  | 0, o => some o
  | depth + 1, around _ inner => inner.inside? depth
  | _ + 1, given _ _ => none

end Origin

/-- The origin of the register that an action makes, given those of the registers at hand; nothing
when it makes none. -/
def Action.origin (made : List Origin) (step : Nat) : Action → Option Origin
  | .allocate v | .forward v => some (.given step v)
  | .copy s => made[s]?
  | .wrap s => made[s]?.map (.around step)
  | _ => none

def stepOrigin (made : List Origin) (now : Nat) (step : Step Action) : Option Origin :=
  match step.resolve with
  | .error _ => none
  | .ok (_, action) => action.origin made now

/-- The origins of all registers, after steps that are counted from `now` on. -/
def runOrigins (made : List Origin) (now : Nat) : List (Step Action) → List Origin
  | [] => made
  | step :: rest => runOrigins (made ++ (stepOrigin made now step).toList) (now + 1) rest

/-- Values that are each given to a step of their own, counted from `now` on. -/
def givenFrom (now : Nat) : List Value → List Origin
  | [] => []
  | v :: rest => .given now v :: givenFrom (now + 1) rest

/-- The origins of all registers of a run. The values it starts from count as allocated one by one,
before its steps. -/
def origins (values : List Value) (steps : List (Step Action)) : List Origin :=
  runOrigins (givenFrom 0 values) values.length steps

def registers [Glyphs] (next : Nat) (values : List Value) (steps : List (Step Action)) :
    List Register :=
  (run next values steps).1.registers

/-- What is inside a value, after taking off a number of wrappings. -/
def inside? : Nat → Register → Option Register
  | 0, h => some h
  | depth + 1, h => (h.content.downcast? .held).bind (inside? depth)

/-! ## A table of all cells -/

variable {base : Nat} {heap : List Origin} {g h : Register} {o p : Origin}

/-- A handle names a cell whose entry in the table is its origin, and holds what that says. The
cells of the table are counted from `base` on. -/
inductive Held (base : Nat) (heap : List Origin) : Register → Origin → Prop
  | given {place step : Nat} {v : Value} : heap[place]? = some (.given step v) →
      Held base heap ⟨base + place, v⟩ (.given step v)
  | around {place step : Nat} {h : Register} {o : Origin} :
      heap[place]? = some (.around step o) → Held base heap h o →
        Held base heap ⟨base + place, .held h⟩ (.around step o)

namespace Held

/-- Entries behind the others leave what is held. -/
theorem grow (hh : Held base heap h o) (more : List Origin) : Held base (heap ++ more) h o := by
  have hkeep : ∀ {place : Nat} {entry : Origin}, heap[place]? = some entry →
      (heap ++ more)[place]? = some entry := by
    intro place entry hentry
    rw [List.getElem?_append_left (List.getElem?_eq_some_iff.mp hentry).1, hentry]
  induction hh with
  | given hentry => exact .given (hkeep hentry)
  | around hentry _ ih => exact .around (hkeep hentry) ih

theorem entry (hh : Held base heap h o) :
    ∃ place, h.cell = base + place ∧ heap[place]? = some o := by
  cases hh with
  | given hentry => exact ⟨_, rfl, hentry⟩
  | around hentry _ => exact ⟨_, rfl, hentry⟩

theorem cell_bounds (hh : Held base heap h o) : base ≤ h.cell ∧ h.cell < base + heap.length := by
  obtain ⟨place, hcell, hentry⟩ := hh.entry
  have hplace : place < heap.length := (List.getElem?_eq_some_iff.mp hentry).1
  omega

theorem ty_eq (hh : Held base heap h o) : h.content.ty = o.ty := by
  cases hh <;> rfl

theorem inside {depth : Nat} (hh : Held base heap h o) (hp : o.inside? depth = some p) :
    ∃ g, inside? depth h = some g ∧ Held base heap g p := by
  induction depth generalizing h o with
  | zero =>
      obtain rfl := Option.some.inj hp
      exact ⟨h, rfl, hh⟩
  | succ depth ih =>
      cases hh with
      | given _ => cases hp
      | around _ hinner => exact ih hinner hp

/-! ### One entry for one step -/

theorem cell_eq_iff (hg : Held base heap g o) (hh : Held base heap h p)
    (hnodup : (heap.map Origin.step).Nodup) : g.cell = h.cell ↔ o.step = p.step := by
  obtain ⟨i, hi, hentry⟩ := hg.entry
  obtain ⟨j, hj, hentry'⟩ := hh.entry
  rw [hi, hj, Nat.add_left_cancel_iff]
  constructor
  · rintro rfl
    rw [hentry] at hentry'
    rw [Option.some.inj hentry']
  · intro hstep
    have hsteps : (heap.map Origin.step)[i]? = (heap.map Origin.step)[j]? := by
      rw [List.getElem?_map, List.getElem?_map, hentry, hentry']
      exact congrArg some hstep
    have hlt : i < (heap.map Origin.step).length := by
      rw [List.length_map]
      exact (List.getElem?_eq_some_iff.mp hentry).1
    exact (List.getElem?_inj hlt hnodup).mp hsteps

theorem sharesCell_iff (hg : Held base heap g o) (hh : Held base heap h p)
    (hnodup : (heap.map Origin.step).Nodup) : g.sharesCell h = true ↔ o.step = p.step := by
  rw [Handle.sharesCell, beq_iff_eq]
  exact hg.cell_eq_iff hh hnodup

/-- There is one handle of an origin, in all that is inside it too. -/
theorem unique (hg : Held base heap g o) (hh : Held base heap h o)
    (hnodup : (heap.map Origin.step).Nodup) : g = h := by
  have hcell : g.cell = h.cell := (hg.cell_eq_iff hh hnodup).mpr rfl
  induction hg generalizing h with
  | given _ =>
      cases hh
      simpa using hcell
  | around _ hinner ih =>
      cases hh with
      | around _ hinner' =>
          have hsame := ih hinner' ((hinner.cell_eq_iff hinner' hnodup).mpr rfl)
          simpa [hsame] using hcell

theorem eq_of_cell_eq (hg : Held base heap g o) (hh : Held base heap h p)
    (hnodup : (heap.map Origin.step).Nodup) (hcell : g.cell = h.cell) : g = h := by
  obtain ⟨i, hi, hentry⟩ := hg.entry
  obtain ⟨j, hj, hentry'⟩ := hh.entry
  obtain rfl : i = j := by omega
  rw [hentry] at hentry'
  obtain rfl := Option.some.inj hentry'
  exact hg.unique hh hnodup

end Held

/-! ## What each action does to the table -/

section Effects

variable {now : Nat} {made : List Origin} {bench : Bench Register}

/-- An effect makes a register just when one is foreseen: one that is held already, or one in the
next cell that was allocated now. -/
inductive Accounts (base : Nat) (heap : List Origin) (now : Nat) :
    Effect Register Answer → Option Origin → Prop
  | answer (answer : Answer) : Accounts base heap now (.answer answer) none
  | copied {h : Register} {o : Origin} (note : Answer) : Held base heap h o →
      Accounts base heap now (.make h 0 note) (some o)
  | allocated {h : Register} {o : Origin} (note : Answer) : o.step = now →
      Held base (heap ++ [o]) h o → Accounts base heap now (.make h 1 note) (some o)

theorem accounts_given (v : Value) :
    Accounts base heap now (allocate (base + heap.length) v) (some (.given now v)) :=
  .allocated _ rfl (.given List.getElem?_concat_length)

theorem accounts_around (hh : Held base heap h o) :
    Accounts base heap now (allocate (base + heap.length) (.held h))
      (some (.around now o)) :=
  .allocated _ rfl (.around List.getElem?_concat_length (hh.grow _))

theorem perform_forward [Glyphs] (bench : Bench Register) (context : Span) (v : Value) :
    perform bench context (.forward v) = allocate bench.next v := by
  simp [perform, Value.erase, Value.of_payload]

theorem perform_accounts [Glyphs] (hnext : bench.next = base + heap.length)
    (hheld : List.Forall₂ (Held base heap) bench.registers made) (context : Span)
    (action : Action) :
    Accounts base heap now (perform bench context action) (action.origin made now) := by
  cases action with
  | allocate v =>
      rw [perform, hnext]
      exact accounts_given v
  | forward v =>
      rw [perform_forward, hnext]
      exact accounts_given v
  | copy s =>
      rw [Action.origin, ← Option.bind_fun_some made[s]?]
      exact Bench.foreseen_withRegister hheld (.answer _) fun _ _ hh => .copied _ hh
  | wrap s =>
      rw [Action.origin, Option.map_eq_bind, perform, hnext]
      exact Bench.foreseen_withRegister hheld (.answer _) fun _ _ hh => accounts_around hh
  -- All others ask about registers and make none.
  | sharesCell s t =>
      exact Bench.foreseen_question (.answer _) fun _ =>
        Bench.foreseen_question (.answer _) fun _ => .answer _
  | map entries key t =>
      rw [perform]
      split <;> exact .answer _
  | _ => exact Bench.foreseen_question (.answer _) fun _ => .answer _

end Effects

/-! ## Whole runs -/

section Runs

variable {now : Nat} {made : List Origin} {bench : Bench Register}

/-- The table is that of the bench: it has an entry for every cell that the run took, each of
another step before now, and it holds every register. -/
structure Accounted (base : Nat) (heap made : List Origin) (now : Nat) (bench : Bench Register) :
    Prop where
  next : bench.next = base + heap.length
  nodup : (heap.map Origin.step).Nodup
  past : ∀ o ∈ heap, o.step < now
  held : List.Forall₂ (Held base heap) bench.registers made

theorem Accounted.later (h : Accounted base heap made now bench) :
    Accounted base heap made (now + 1) bench :=
  { h with past := fun o ho => Nat.lt_succ_of_lt (h.past o ho) }

theorem Accounted.copied (hbench : Accounted base heap made now bench) (hh : Held base heap h o) :
    Accounted base heap (made ++ [o]) (now + 1) ⟨bench.registers ++ [h], bench.next⟩ :=
  { hbench.later with held := List.rel_append hbench.held (.cons hh .nil) }

theorem Accounted.allocated (hbench : Accounted base heap made now bench) (hstep : o.step = now)
    (hh : Held base (heap ++ [o]) h o) :
    Accounted base (heap ++ [o]) (made ++ [o]) (now + 1)
      ⟨bench.registers ++ [h], bench.next + 1⟩ where
  next := by
    rw [hbench.next, List.length_append]
    rfl
  nodup := by
    rw [List.map_append, List.nodup_append]
    refine ⟨hbench.nodup, List.nodup_singleton _, fun old hold new hnew hsame => ?_⟩
    obtain ⟨q, hq, rfl⟩ := List.mem_map.mp hold
    have hpast := hbench.past q hq
    rw [hsame, List.mem_singleton.mp hnew, hstep] at hpast
    exact Nat.lt_irrefl now hpast
  past q hq := by
    rcases List.mem_append.mp hq with hold | hnew
    · exact Nat.lt_succ_of_lt (hbench.past q hold)
    · rw [List.mem_singleton.mp hnew, hstep]
      exact Nat.lt_succ_self now
  held := List.rel_append (hbench.held.imp fun _ _ hold => hold.grow [o]) (.cons hh .nil)

theorem Accounted.allocateAll (hbench : Accounted base heap made now bench) (values : List Value) :
    ∃ heap', Accounted base heap' (made ++ givenFrom now values) (now + values.length)
      ⟨bench.registers ++ allocateAll bench.next values, bench.next + values.length⟩ := by
  induction values generalizing heap made now bench with
  | nil => exact ⟨heap, by simpa [givenFrom, OnValues.allocateAll] using hbench⟩
  | cons v rest ih =>
      have hheld : Held base (heap ++ [.given now v]) ⟨bench.next, v⟩ (.given now v) := by
        rw [hbench.next]
        exact .given List.getElem?_concat_length
      obtain ⟨heap', hrest⟩ := ih (hbench.allocated rfl hheld)
      refine ⟨heap', ?_⟩
      simpa [givenFrom, OnValues.allocateAll, Nat.add_assoc, Nat.add_comm 1] using hrest

variable [Glyphs]

theorem Accounted.step (hbench : Accounted base heap made now bench) (step : Step Action) :
    ∃ heap', Accounted base heap' (made ++ (stepOrigin made now step).toList) (now + 1)
      (bench.step perform step).1 := by
  rw [Bench.step, stepOrigin]
  cases step.resolve with
  | error e => exact ⟨heap, by simpa using hbench.later⟩
  | ok resolved =>
      obtain ⟨context, action⟩ := resolved
      have haccounts : Accounts base heap now (perform bench context action)
          (action.origin made now) := perform_accounts hbench.next hbench.held context action
      dsimp only
      generalize perform bench context action = effect at haccounts
      generalize action.origin made now = foreseen at haccounts
      cases haccounts with
      | answer answer => exact ⟨heap, by simpa using hbench.later⟩
      | copied note hh => exact ⟨heap, hbench.copied hh⟩
      | allocated note hstep hh => exact ⟨_, hbench.allocated hstep hh⟩

theorem Accounted.run (hbench : Accounted base heap made now bench) (steps : List (Step Action)) :
    ∃ heap' now', Accounted base heap' (runOrigins made now steps) now'
      (bench.run perform steps).1 := by
  induction steps generalizing heap made now bench with
  | nil => exact ⟨heap, now, hbench⟩
  | cons step rest ih =>
      obtain ⟨heap', hstep⟩ := hbench.step step
      exact ih hstep

theorem accounted_run (base : Nat) (values : List Value) (steps : List (Step Action)) :
    ∃ heap now, Accounted base heap (origins values steps) now (run base values steps).1 := by
  have hnothing : Accounted base [] [] 0 ⟨[], base⟩ := ⟨rfl, .nil, nofun, .nil⟩
  obtain ⟨heap, hstart⟩ := hnothing.allocateAll values
  rw [Nat.zero_add] at hstart
  exact hstart.run steps

end Runs

/-! ## What is known of a handle -/

section Answers

variable {held : List Register} {made : List Origin}

/-- What is known of a handle by its origin, beside the registers with the origins `made`: with
which of them it shares its cell, and as which type it can be read. -/
structure Identified (held : List Register) (made : List Origin) (h : Register) (o : Origin) :
    Prop where
  shared : ∀ (j : Nat) (r : Register) (p : Origin), held[j]? = some r → made[j]? = some p →
    (h.sharesCell r = true ↔ o.step = p.step)
  content : ∀ r ∈ held, h.sharesCell r = true → h.content = r.content
  is_iff : ∀ t, h.content.is t = true ↔ t = o.ty
  isSome_downcast? : ∀ t, (h.content.downcast? t).isSome = h.content.is t
  backward : ∀ t, (Value.erase t).backward h.content = h.content.downcast? t
  name : h.content.ty.name = o.ty.name
  payload : ∀ step v, o = .given step v → ∀ t payload,
    h.content.downcast? t = some payload ↔ v = .of t payload

theorem Held.identified (hheld : List.Forall₂ (Held base heap) held made)
    (hnodup : (heap.map Origin.step).Nodup) (hh : Held base heap h o) :
    Identified held made h o where
  shared _ _ _ hr hp :=
    hh.sharesCell_iff (fits_of_getElem? hheld hr hp) hnodup
  content r hr hcell := by
    obtain ⟨j, hj, rfl⟩ := List.getElem_of_mem hr
    have hj' : j < made.length := hheld.length_eq ▸ hj
    rw [hh.eq_of_cell_eq (hheld.get hj hj') hnodup (beq_iff_eq.mp hcell)]
    rfl
  is_iff t := by rw [Value.is, beq_iff_eq, hh.ty_eq, eq_comm]
  isSome_downcast? t := (Value.is_eq_isSome_downcast? _ t).symm
  backward _ := rfl
  name := congrArg Ty.name hh.ty_eq
  payload := by
    rintro step v rfl t payload
    cases hh
    exact Value.downcast?_eq_some_iff

/-! ### Maps of registers -/

variable {bench : Bench Register} {entries : List (String × Nat)}
  {copies : List (String × Register)} {key : String} {t : Ty}

/-- An entry that names a register, and the entry with its copy. -/
def Copies (bench : Bench Register) (entry : String × Nat) (copy : String × Register) : Prop :=
  copy.1 = entry.1 ∧ bench.registers[entry.2]? = some copy.2

theorem exists_copies (h : ∀ entry ∈ entries, entry.2 < bench.registers.length) :
    ∃ copies, registersOf bench entries = some copies
      ∧ List.Forall₂ (Copies bench) entries copies := by
  induction entries with
  | nil => exact ⟨[], rfl, .nil⟩
  | cons entry rest ih =>
      obtain ⟨hentry, hrest⟩ := List.forall_mem_cons.mp h
      obtain ⟨copies, hcopies, hall⟩ := ih hrest
      have hr : bench.registers[entry.2]? = some bench.registers[entry.2] :=
        List.getElem?_eq_getElem hentry
      exact ⟨(entry.1, _) :: copies, by simp [registersOf, hr, hcopies], .cons ⟨rfl, hr⟩ hall⟩

theorem lookup_copies (h : List.Forall₂ (Copies bench) entries copies) :
    copies.lookup key = (entries.lookup key).bind fun s => bench.registers[s]? := by
  induction h with
  | nil => rfl
  | cons hfirst _ ih =>
      obtain ⟨hkey, hr⟩ := hfirst
      rw [List.lookup_cons, List.lookup_cons, hkey, ih]
      split
      · exact hr.symm
      · rfl

/-- A map of copies binds a key to the copy of the register last written under it. -/
theorem get?_copies (h : List.Forall₂ (Copies bench) entries copies) :
    (PropertyMap.ofList copies).get? key
      = ((PropertyMap.ofList entries).get? key).bind fun s => bench.registers[s]? := by
  rw [PropertyMap.get?_ofList, PropertyMap.get?_ofList]
  exact lookup_copies (List.forall₂_reverse_iff.mpr h)

theorem map_sharesCell (hheld : List.Forall₂ (Held base heap) held made)
    (hnodup : (heap.map Origin.step).Nodup) (hh : Held base heap h o) :
    held.map (fun r => r.sharesCell h) = made.map fun p => p.step == o.step := by
  induction hheld with
  | nil => rfl
  | cons hr _ ih =>
      have hfirst := (hr.sharesCell_iff hh hnodup).trans beq_iff_eq.symm
      rw [List.map_cons, List.map_cons, ih, Bool.eq_iff_iff.mpr hfirst]

/-- What a map of copies says of a key and a type: of a key never written nothing, and otherwise
which registers share the cell of the one last written, and its value if it is of the type. -/
structure ToldOf (held : List Register) (made : List Origin) (entries : List (String × Nat))
    (key : String) (t : Ty) (m : MapAnswer) : Prop where
  unwritten : key ∉ entries.map Prod.fst → m.shared = none ∧ m.payload = none
  written : ∀ (i s : Nat) (r : Register) (o : Origin), PropertyMap.LastWrite entries i key s →
    held[s]? = some r → made[s]? = some o →
      m.shared = some (made.map fun p => p.step == o.step)
      ∧ m.payload = if o.ty = t then some r.content else none

theorem perform_map [Glyphs] (hheld : List.Forall₂ (Held base heap) bench.registers made)
    (hnodup : (heap.map Origin.step).Nodup) (context : Span) (key : String) (t : Ty)
    (hentries : ∀ entry ∈ entries, entry.2 < bench.registers.length) :
    ∃ m, perform bench context (.map entries key t) = .answer (.map m)
      ∧ ToldOf bench.registers made entries key t m := by
  obtain ⟨copies, hcopies, hall⟩ := exists_copies hentries
  refine ⟨mapAnswer bench (.ofList copies) key t, by rw [perform, hcopies], fun hkey => ?_,
    fun i s r o hlast hr ho => ?_⟩
  · have hunbound : (PropertyMap.ofList copies).get? key = none := by
      rw [get?_copies hall, Option.bind_eq_none_iff]
      intro s hs
      obtain ⟨i, hlast⟩ := PropertyMap.get?_ofList_eq_some_iff_lastWrite.mp hs
      exact absurd hlast.mem hkey
    simp [mapAnswer, hunbound]
  · have hbound : (PropertyMap.ofList copies).get? key = some r := by
      rw [get?_copies hall, PropertyMap.get?_ofList_eq_some_iff_lastWrite.mpr ⟨i, hlast⟩]
      exact hr
    have hh := fits_of_getElem? hheld hr ho
    simp only [mapAnswer, hbound, Option.map_some, Option.bind_eq_bind, Option.bind_some,
      map_sharesCell hheld hnodup hh, Value.map_of_downcast?, hh.ty_eq, and_self]

end Answers

/-! ## What each step makes -/

variable [Glyphs]

section Steps

variable {bench : Bench Register} {step : Step Action} {i : Nat} {v : Value}

theorem registers_copy (h : step.Does (.copy i)) (hg : bench.registers[i]? = some g) :
    (bench.step perform step).1.registers = bench.registers ++ [g] :=
  Bench.registers_of_make h fun _ => Bench.withRegister_of_getElem? hg _ _

theorem registers_wrap (h : step.Does (.wrap i)) (hg : bench.registers[i]? = some g) :
    (bench.step perform step).1.registers = bench.registers ++ [⟨bench.next, .held g⟩] :=
  Bench.registers_of_make h fun _ => Bench.withRegister_of_getElem? hg _ _

/-- Allocating, by the operation or by the mapping. -/
theorem registers_allocate (h : step.Does (.allocate v) ∨ step.Does (.forward v)) :
    (bench.step perform step).1.registers = bench.registers ++ [⟨bench.next, v⟩] := by
  rcases h with h | h
  · exact Bench.registers_of_make h fun _ => rfl
  · exact Bench.registers_of_make h fun context => perform_forward bench context v

end Steps

theorem registers_run_append (next : Nat) (values : List Value) (steps more : List (Step Action)) :
    registers next values (steps ++ more)
      = ((run next values steps).1.run perform more).1.registers :=
  congrArg Bench.registers (Bench.run_append steps more)

/-- Over whole runs two registers share a cell exactly when they go back to the same allocating
step, and then they hold the same; none is in a cell below `next`. A register is read as exactly one
type, that of the value it was given, by each way of reading. So is whatever is inside it, after
taking off any number of wrappings, and that shares the cells of the registers of its origin. A map
of copies holds the registers last written. A copy is the register copied, and all else is in a cell
of its own: the value around a register that is wrapped holds just that, and nothing else is seen in
it. -/
theorem values_have_one_origin (next : Nat) (values : List Value) (steps : List (Step Action)) :
    (registers next values steps).length = (origins values steps).length
    ∧ (∀ (i : Nat) (r : Register) (o : Origin),
        (registers next values steps)[i]? = some r → (origins values steps)[i]? = some o →
          next ≤ r.cell ∧ ∀ depth p, o.inside? depth = some p →
            ∃ h, inside? depth r = some h
              ∧ Identified (registers next values steps) (origins values steps) h p)
    ∧ (∀ (context : Span) (entries : List (String × Nat)) (key : String) (t : Ty),
        (∀ entry ∈ entries, entry.2 < (registers next values steps).length) →
          ∃ m, perform (run next values steps).1 context (.map entries key t) = .answer (.map m)
            ∧ ToldOf (registers next values steps) (origins values steps) entries key t m)
    ∧ (∀ (step : Step Action) (v : Value), (step.Does (.allocate v) ∨ step.Does (.forward v)) →
        ∃ r, registers next values (steps ++ [step]) = registers next values steps ++ [r]
          ∧ r.content = v ∧ ∀ s ∈ registers next values steps, r.sharesCell s = false)
    ∧ ∀ (i : Nat) (s : Register), (registers next values steps)[i]? = some s →
        (∀ step : Step Action, step.Does (.copy i) →
          registers next values (steps ++ [step]) = registers next values steps ++ [s])
        ∧ ∀ step : Step Action, step.Does (.wrap i) →
          ∃ r, registers next values (steps ++ [step]) = registers next values steps ++ [r]
            ∧ (∃ h, r.content.downcast? .held = some h ∧ h.sharesCell s = true)
            ∧ (∀ t, t ≠ .held → r.content.downcast? t = none)
            ∧ ∀ s' ∈ registers next values steps, r.sharesCell s' = false := by
  obtain ⟨heap, now, haccounted⟩ := accounted_run next values steps
  have hheld := haccounted.held
  have hfresh : ∀ (v : Value), ∀ s ∈ registers next values steps,
      Handle.sharesCell ⟨(run next values steps).1.next, v⟩ s = false := by
    intro v s hs
    obtain ⟨j, hj, rfl⟩ := List.getElem_of_mem hs
    have hbounds := (hheld.get hj (hheld.length_eq ▸ hj)).cell_bounds
    rw [← haccounted.next] at hbounds
    exact beq_false_of_ne (Nat.ne_of_gt hbounds.2)
  refine ⟨hheld.length_eq, fun i r o hr ho => ?_, fun context entries key t hentries =>
    perform_map hheld haccounted.nodup context key t hentries, fun step v hstep => ?_,
    fun i s hs => ⟨fun step hstep => ?_, fun step hstep => ?_⟩⟩
  · have hh := fits_of_getElem? hheld hr ho
    refine ⟨hh.cell_bounds.1, fun depth p hp => ?_⟩
    obtain ⟨h, hinside, hinner⟩ := hh.inside hp
    exact ⟨h, hinside, hinner.identified hheld haccounted.nodup⟩
  · refine ⟨⟨(run next values steps).1.next, v⟩, ?_, rfl, hfresh v⟩
    rw [registers_run_append]
    exact registers_allocate hstep
  · rw [registers_run_append]
    exact registers_copy hstep hs
  · refine ⟨⟨(run next values steps).1.next, .held s⟩, ?_, ⟨s, rfl, beq_self_eq_true s.cell⟩,
      fun t ht => Value.downcast?_of_ty_ne ht.symm, hfresh _⟩
    rw [registers_run_append]
    exact registers_wrap hstep hs

/-- A seven, its copy, the copy wrapped, and another seven: inside the wrapping is the first. -/
example :
    (registers 0 [.int 7]
      [⟨.point 0, .ok (.copy 0)⟩, ⟨.point 0, .ok (.wrap 1)⟩,
       ⟨.point 0, .ok (.allocate (.int 7))⟩]).map
        (fun r => (r.sharesCell ⟨0, .int 7⟩, (inside? 1 r).map fun h => h.sharesCell ⟨0, .int 7⟩))
      = [(true, none), (true, none), (false, some true), (false, none)] :=
  rfl

end Program.OnValues

end Biparse
