import Biparse.Program.Sequence
import Biparse.Proofs.Program.Registers
import Biparse.Proofs.Sequence.Refinement
import Mathlib.Data.List.Nodup

/-!
# Node identity over whole runs

Sequences share nodes: a copy and a prefix end in a node that is there already. Where the nodes of a
register come from can be said without nodes, by following the program (`origins`): every append
that happens has a step of the program and a place within the step.

Two registers end in one node exactly when the last appends behind them are the same append, and
then they agree in all there is to a sequence (`nodes_have_one_origin`). What carries this is a
table with an entry for every node of the run: the sequence that ends in it and its origin. The
table only grows at its end, so an entry stays what it is, and no two entries have one origin
(`Accounted`). The step lemma (`Accounted.step`) is one case for each action
(`perform_accounts`); everything that appends goes through `Held.extend`.
-/

namespace Biparse

theorem Sequence.leftInverse_push {α : Type} (floor : Nat) (s : Sequence α) (x : α) :
    (appendFold α floor).leftInverse (s.push x)
      = if s.size + 1 ≤ floor then none else some s := by
  change (if s.size + 1 ≤ floor then none else (s.push x).splitLast?).map Prod.fst = _
  rw [splitLast?_push]
  split <;> rfl

namespace Program.OnSequences

/-! ## Where nodes come from -/

/-- An append: the step of the program it happens in, and how many the step has made before it. -/
structure Origin where
  step : Nat
  place : Nat
deriving DecidableEq

/-- The first appends of a step. -/
def appends (step count : Nat) : List Origin := (List.range count).map (Origin.mk step)

@[simp] theorem length_appends (step count : Nat) : (appends step count).length = count := by
  simp [appends]

theorem mem_appends {step count : Nat} {origin : Origin} (h : origin ∈ appends step count) :
    origin.step = step := by
  obtain ⟨place, -, rfl⟩ := List.mem_map.mp h
  rfl

theorem nodup_appends (step count : Nat) : (appends step count).Nodup :=
  List.nodup_range.map fun _ _ h => congrArg Origin.place h

/-- The origins after a reordering: it appends all the elements anew. -/
def reorderedOrigins (step : Nat) (order : List Nat) (origins : List Origin) :
    Option (List Origin) :=
  match Permutation.ofOrder order with
  | .error _ => none
  | .ok p => if origins.length = p.size then some (appends step p.size) else none

/-- The origins of the nodes an action makes a register of, given those of the registers at hand;
nothing when it makes none. -/
def Action.origins (made : List (List Origin)) (step : Nat) : Action → Option (List Origin)
  | .clear | .supplyEmpty => some []
  | .copy s => made[s]?
  | .append s _ | .appendForward _ s _ => made[s]?.map fun origins => origins ++ appends step 1
  | .collect items => some (appends step items.length)
  | .range s first stop =>
    made[s]?.map fun origins => origins ++ appends step (stop - first).toNat
  | .splitLast s =>
    made[s]?.bind fun origins => if origins.isEmpty then none else some origins.dropLast
  | .appendLeft floor s =>
    made[s]?.bind fun origins => if origins.length ≤ floor then none else some origins.dropLast
  | .pairForward _ _ => some (appends step 2)
  | .singleForward _ => some (appends step 1)
  | .permuteForward s order | .permuteBackward s order =>
    made[s]?.bind (reorderedOrigins step order)
  | _ => none

/-- The origins of the nodes a step makes a register of. -/
def stepOrigins (made : List (List Origin)) (now : Nat) (step : Step Action) :
    Option (List Origin) :=
  match step.resolve with
  | .error _ => none
  | .ok (_, action) => action.origins made now

/-- The origins of the nodes of all registers, after steps that are counted from `now` on. -/
def runOrigins (made : List (List Origin)) (now : Nat) : List (Step Action) → List (List Origin)
  | [] => made
  | step :: rest => runOrigins (made ++ (stepOrigins made now step).toList) (now + 1) rest

/-- The origins of the nodes of all registers of a run. The elements it starts from count as
appended in step 0. -/
def origins (items : List Elem) (steps : List (Step Action)) : List (List Origin) :=
  runOrigins [appends 0 items.length] 1 steps

/-- The registers of a run. -/
def registers [Glyphs] (items : List Elem) (steps : List (Step Action)) : List Register :=
  (run items steps).1.registers

/-! ## A table of all nodes -/

variable {heap more : List (Register × Origin)} {s t : Register} {os ot : List Origin}

/-- The table has an entry for every node of a sequence, at the tag of the node: the elements up to
the node, and its origin. -/
inductive Held (heap : List (Register × Origin)) : Register → List Origin → Prop
  | empty : Held heap .empty []
  | push {s : Register} {os : List Origin} {x : Tagged Elem} {origin : Origin} :
      Held heap s os → heap[x.tag]? = some (s.push x, origin) →
        Held heap (s.push x) (os ++ [origin])

namespace Held

/-- Entries behind the others leave what is held. -/
theorem grow (h : Held heap s os) (more : List (Register × Origin)) :
    Held (heap ++ more) s os := by
  induction h with
  | empty => exact .empty
  | push _ hentry ih =>
      refine ih.push ?_
      rw [List.getElem?_append_left (List.getElem?_eq_some_iff.mp hentry).1, hentry]

theorem length_eq (h : Held heap s os) : os.length = s.toList.length := by
  induction h with
  | empty => rfl
  | push _ _ ih => simp [ih]

/-- Either there is nothing, or the last node has its entry and what comes before it is held. -/
theorem cases_last (h : Held heap s os) :
    (s = .empty ∧ os = []) ∨ ∃ p x before origin, s = p.push x ∧ os = before ++ [origin]
      ∧ Held heap p before ∧ heap[x.tag]? = some (s, origin) := by
  cases h with
  | empty => exact .inl ⟨rfl, rfl⟩
  | push hbefore hentry => exact .inr ⟨_, _, _, _, rfl, rfl, hbefore, hentry⟩

/-- Elements in fresh nodes get the next entries, whatever origins those are given. -/
theorem extend (h : Held heap s os) (items : List Elem) {fresh : List Origin}
    (hlength : fresh.length = items.length) :
    ∃ more, more.map Prod.snd = fresh
      ∧ Held (heap ++ more) (s.extend heap.length items) (os ++ fresh) := by
  induction items generalizing heap s os fresh with
  | nil =>
      obtain rfl := List.length_eq_zero_iff.mp hlength
      exact ⟨[], rfl, by simpa [TracedSequence.extend, TracedSequence.tagFrom] using h⟩
  | cons x rest ih =>
      obtain ⟨origin, fresh, rfl⟩ := List.exists_cons_of_length_eq_add_one hlength
      -- The entry of the first element ends the table that the rest goes on from.
      let entry : Register × Origin := (s.push ⟨heap.length, x⟩, origin)
      have hpush : Held (heap ++ [entry]) entry.1 (os ++ [origin]) :=
        (h.grow [entry]).push (by simp [entry])
      obtain ⟨more, hmore, hheld⟩ := ih hpush (Nat.succ.inj hlength)
      refine ⟨entry :: more, by rw [List.map_cons, hmore], ?_⟩
      rw [List.append_assoc, List.length_append] at hheld
      rwa [List.append_assoc] at hheld

/-! ### One entry for one node -/

/-- Sequences that end in one node are one sequence. -/
theorem eq_of_sharesNode (hs : Held heap s os) (ht : Held heap t ot)
    (h : s.sharesNode t = true) : s = t := by
  rw [TracedSequence.sharesNode, beq_iff_eq] at h
  rcases hs.cases_last with ⟨rfl, -⟩ | ⟨p, x, _, _, rfl, _, _, hx⟩ <;>
    rcases ht.cases_last with ⟨rfl, -⟩ | ⟨q, y, _, _, rfl, _, _, hy⟩
  · rfl
  · cases h
  · cases h
  · rw [Option.some.inj h, hy] at hx
    exact (congrArg Prod.fst (Option.some.inj hx)).symm

theorem sharesNode_iff (hs : Held heap s os) (ht : Held heap t ot)
    (hnodup : (heap.map Prod.snd).Nodup) :
    s.sharesNode t = true ↔ os.getLast? = ot.getLast? := by
  rw [TracedSequence.sharesNode, beq_iff_eq]
  rcases hs.cases_last with ⟨rfl, rfl⟩ | ⟨p, x, before, origin, rfl, rfl, -, hx⟩ <;>
    rcases ht.cases_last with ⟨rfl, rfl⟩ | ⟨q, y, before', origin', rfl, rfl, -, hy⟩
  · exact iff_of_true rfl rfl
  · exact iff_of_false nofun (by simp)
  · exact iff_of_false nofun (by simp)
  · rw [List.getLast?_concat, List.getLast?_concat, Option.some.injEq]
    -- One tag has one entry, and by `hnodup` one origin stands at one place only.
    constructor
    · intro htag
      rw [Option.some.inj htag, hy] at hx
      exact (congrArg Prod.snd (Option.some.inj hx)).symm
    · rintro rfl
      have horigins : (heap.map Prod.snd)[x.tag]? = (heap.map Prod.snd)[y.tag]? := by
        rw [List.getElem?_map, List.getElem?_map, hx, hy]
        rfl
      have hlt : x.tag < (heap.map Prod.snd).length := by
        rw [List.length_map]
        exact (List.getElem?_eq_some_iff.mp hx).1
      exact congrArg some ((List.getElem?_inj hlt hnodup).mp horigins)

end Held

/-! ## What each action does to the table -/

section Effects

variable {now : Nat} {made : List (List Origin)} {bench : Bench Register}

/-- An effect makes a register just when one is foreseen, with nodes of the origins foreseen, and
the identities it uses up are for the next appends of the step. -/
inductive Accounts (heap : List (Register × Origin)) (now : Nat) :
    Effect Register Answer → Option (List Origin) → Prop
  | answer (answer : Answer) : Accounts heap now (.answer answer) none
  | make {register : Register} {used : Nat} {note : Answer} {origins : List Origin}
      {more : List (Register × Origin)} :
      more.map Prod.snd = appends now used → Held (heap ++ more) register origins →
        Accounts heap now (.make register used note) (some origins)

theorem accounts_held (h : Held heap s os) (note : Answer) :
    Accounts heap now (.make s 0 note) (some os) := by
  have hnone : List.map Prod.snd ([] : List (Register × Origin)) = appends now 0 := rfl
  exact .make hnone (by rwa [List.append_nil])

theorem accounts_extend (h : Held heap s os) (items : List Elem) :
    Accounts heap now (extend heap.length s items)
      (some (os ++ appends now items.length)) := by
  obtain ⟨more, hmore, hheld⟩ := h.extend items (length_appends now items.length)
  exact .make hmore hheld

theorem integers_length (first stop : Int) :
    (integers first stop).length = (stop - first).toNat := by
  simp [integers]

theorem accounts_splitLast (h : Held heap s os) :
    Accounts heap now
      (match s.splitLast? with
        | none => .answer .refused
        | some (before, last) => .make before 0 (.element last.item))
      (if os.isEmpty then none else some os.dropLast) := by
  rcases h.cases_last with ⟨rfl, rfl⟩ | ⟨p, x, before, origin, rfl, rfl, hbefore, -⟩
  · exact .answer _
  · rw [Sequence.splitLast?_push, List.dropLast_concat, if_neg (by simp)]
    exact accounts_held hbefore _

/-- The inverse of an append refuses just when no more than the floor is there. -/
theorem accounts_appendLeft (h : Held heap s os) (floor : Nat) :
    Accounts heap now
      (match (Sequence.appendFold _ floor).leftInverse s with
        | none => .answer .refused
        | some before => make before 0)
      (if os.length ≤ floor then none else some os.dropLast) := by
  rcases h.cases_last with ⟨rfl, rfl⟩ | ⟨p, x, before, origin, rfl, rfl, hbefore, -⟩
  · exact .answer _
  · have hsize : (before ++ [origin]).length = p.size + 1 := by
      rw [List.length_append, hbefore.length_eq, Sequence.size_eq_length]
      rfl
    rw [Sequence.leftInverse_push, List.dropLast_concat, hsize]
    by_cases hfloor : p.size + 1 ≤ floor
    · rw [if_pos hfloor, if_pos hfloor]
      exact .answer _
    · rw [if_neg hfloor, if_neg hfloor]
      exact accounts_held hbefore _

theorem elim_eq_ok_iff {ε α : Type} {found : Option α} {e : ε} {a : α} :
    found.elim (.error e) Except.ok = .ok a ↔ found = some a := by
  cases found <;> simp

/-- A reordering that goes through makes as many fresh nodes as the order has indices. -/
theorem accounts_reorder (h : Held heap s os) (order : List Nat)
    {apply : Permutation → Except Answer Register}
    (hgoes : ∀ p, (∃ r, apply p = .ok r) ↔ s.toList.length = p.size)
    (hlength : ∀ p r, apply p = .ok r → r.toList.length = p.size) :
    Accounts heap now (reorder heap.length order apply) (reorderedOrigins now order os) := by
  rw [reorder, reorderedOrigins]
  cases Permutation.ofOrder order with
  | error e => exact .answer _
  | ok p =>
      rw [h.length_eq]
      cases happly : apply p with
      | error answer =>
          have hnot : ¬ s.toList.length = p.size := fun hsize => by
            obtain ⟨r, hr⟩ := (hgoes p).mpr hsize
            cases happly.symm.trans hr
          simp only [happly, if_neg hnot]
          exact .answer _
      | ok r =>
          have hitems : r.items.length = p.size := by
            rw [TracedSequence.items, List.length_map, hlength p r happly]
          simp only [happly, if_pos ((hgoes p).mp ⟨r, happly⟩)]
          rw [← hitems]
          exact accounts_extend .empty r.items

theorem perform_accounts [Glyphs] (hlength : heap.length = bench.next)
    (hheld : List.Forall₂ (Held heap) bench.registers made) (context : Span) (action : Action) :
    Accounts heap now (perform bench context action) (action.origins made now) := by
  cases action with
  | clear => exact accounts_held .empty _
  | supplyEmpty => exact accounts_held .empty _
  | copy s =>
      rw [Action.origins, ← Option.bind_fun_some made[s]?]
      exact Bench.foreseen_withRegister hheld (.answer _) fun _ _ hs => accounts_held hs _
  | append s x =>
      rw [Action.origins, Option.map_eq_bind, perform, ← hlength]
      exact Bench.foreseen_withRegister hheld (.answer _) fun _ _ hs => accounts_extend hs [x]
  | appendForward floor s x =>
      rw [Action.origins, Option.map_eq_bind, perform, ← hlength]
      exact Bench.foreseen_withRegister hheld (.answer _) fun _ _ hs => accounts_extend hs [x]
  | collect items =>
      rw [perform, ← hlength]
      exact accounts_extend .empty items
  | range s first stop =>
      rw [Action.origins, Option.map_eq_bind, perform, ← hlength, ← integers_length]
      exact Bench.foreseen_withRegister hheld (.answer _) fun _ _ hs => accounts_extend hs _
  | pairForward x y =>
      rw [perform, ← hlength]
      exact accounts_extend .empty [x, y]
  | singleForward x =>
      rw [perform, ← hlength]
      exact accounts_extend .empty [x]
  | splitLast s =>
      exact Bench.foreseen_withRegister hheld (.answer _) fun _ _ hs => accounts_splitLast hs
  | appendLeft floor s =>
      exact Bench.foreseen_withRegister hheld (.answer _) fun _ _ hs => accounts_appendLeft hs floor
  | permuteForward s order =>
      rw [perform, ← hlength]
      refine Bench.foreseen_withRegister hheld (.answer _) fun s _ hs =>
        accounts_reorder hs order ?_ ?_
      · intro p
        simp only [mapError_eq_ok_iff, Permutation.exists_forward_eq_ok_iff]
      · intro p r hr
        exact (Permutation.forward_eq_ok_iff.mp (mapError_eq_ok_iff.mp hr)).length_eq
  | permuteBackward s order =>
      rw [perform, ← hlength]
      refine Bench.foreseen_withRegister hheld (.answer _) fun s _ hs =>
        accounts_reorder hs order ?_ ?_
      · intro p
        simp only [elim_eq_ok_iff, Permutation.exists_backward_eq_some_iff]
      · intro p r hr
        exact (Permutation.backward_eq_some_iff.mp (elim_eq_ok_iff.mp hr)).1
  -- All others ask about registers and make none.
  | same s t | sharesNode s t =>
      exact Bench.foreseen_question (.answer _) fun _ =>
        Bench.foreseen_question (.answer _) fun _ => .answer _
  | appendInfo floor => exact .answer _
  | emptyDisplay => exact .answer _
  | _ => exact Bench.foreseen_question (.answer _) fun _ => .answer _

end Effects

/-! ## Whole runs -/

section Runs

variable {now : Nat} {made : List (List Origin)} {bench : Bench Register}

/-- The table is that of the bench: its entries have the identities used so far, one origin each,
all from steps before now, and it holds every register. -/
structure Accounted (heap : List (Register × Origin)) (made : List (List Origin)) (now : Nat)
    (bench : Bench Register) : Prop where
  length : heap.length = bench.next
  nodup : (heap.map Prod.snd).Nodup
  past : ∀ origin ∈ heap.map Prod.snd, origin.step < now
  held : List.Forall₂ (Held heap) bench.registers made

/-- A step that makes no register leaves the table as it is. -/
theorem Accounted.idle (h : Accounted heap made now bench) : Accounted heap made (now + 1) bench :=
  { h with past := fun origin horigin => Nat.lt_succ_of_lt (h.past origin horigin) }

/-- A register with fresh nodes adds them to the table. -/
theorem Accounted.add (h : Accounted heap made now bench) {used : Nat}
    (hmore : more.map Prod.snd = appends now used) (hheld : Held (heap ++ more) s os) :
    Accounted (heap ++ more) (made ++ [os]) (now + 1)
      ⟨bench.registers ++ [s], bench.next + used⟩ where
  length := by
    have hused : more.length = used := by simpa using congrArg List.length hmore
    rw [List.length_append, h.length, hused]
  nodup := by
    rw [List.map_append, hmore, List.nodup_append]
    refine ⟨h.nodup, nodup_appends now used, fun old hold new hnew hsame => ?_⟩
    have hpast := h.past old hold
    rw [hsame, mem_appends hnew] at hpast
    exact Nat.lt_irrefl now hpast
  past origin horigin := by
    rw [List.map_append, hmore, List.mem_append] at horigin
    rcases horigin with hold | hnew
    · exact Nat.lt_succ_of_lt (h.past origin hold)
    · exact Nat.lt_succ_of_le (Nat.le_of_eq (mem_appends hnew))
  held := List.rel_append (h.held.imp fun _ _ hs => hs.grow more) (.cons hheld .nil)

variable [Glyphs]

theorem Accounted.step (h : Accounted heap made now bench) (step : Step Action) :
    ∃ more, Accounted (heap ++ more) (made ++ (stepOrigins made now step).toList) (now + 1)
      (bench.step perform step).1 := by
  rw [Bench.step, stepOrigins]
  cases step.resolve with
  | error e => exact ⟨[], by simpa using h.idle⟩
  | ok resolved =>
      obtain ⟨context, action⟩ := resolved
      have haccounts : Accounts heap now (perform bench context action)
          (action.origins made now) := perform_accounts h.length h.held context action
      dsimp only
      generalize perform bench context action = effect at haccounts
      generalize action.origins made now = foreseen at haccounts
      cases haccounts with
      | answer answer => exact ⟨[], by simpa using h.idle⟩
      | make hmore hheld => exact ⟨_, h.add hmore hheld⟩

theorem Accounted.run (h : Accounted heap made now bench) (steps : List (Step Action)) :
    ∃ heap' now', Accounted heap' (runOrigins made now steps) now' (bench.run perform steps).1 := by
  induction steps generalizing heap made now bench with
  | nil => exact ⟨heap, now, h⟩
  | cons step rest ih =>
      obtain ⟨more, hstep⟩ := h.step step
      exact ih hstep

theorem accounted_run (items : List Elem) (steps : List (Step Action)) :
    ∃ heap now, Accounted heap (origins items steps) now (run items steps).1 := by
  have hnothing : Accounted [] [] 0 ⟨[], 0⟩ := ⟨rfl, .nil, nofun, .nil⟩
  obtain ⟨more, hmore, hheld⟩ := Held.empty.extend items (length_appends 0 items.length)
  have hstart : Accounted more [appends 0 items.length] 1 (start items) := by
    simpa [start] using hnothing.add hmore hheld
  exact hstart.run steps

end Runs

/-! ## What sharing a node says -/

/-- What sharing a node says of two registers whose nodes have the given origins. -/
structure ToldApart (s t : Register) (os ot : List Origin) : Prop where
  sizes : s.size = os.length ∧ t.size = ot.length
  shared : s.sharesNode t = true ↔ os.getLast? = ot.getLast?
  contents : s.sharesNode t = true → s.size = t.size ∧ s.items = t.items
  prefixes : s.sharesNode t = true →
    Option.Rel (fun p q : Register × Tagged Elem => p.1.sharesNode q.1 = true)
      s.splitLast? t.splitLast?
  empties : s.isEmpty = true → t.isEmpty = true → s.sharesNode t = true

theorem sharesNode_equivalence : Equivalence fun s t : Register => s.sharesNode t = true := by
  simp only [TracedSequence.sharesNode, beq_iff_eq]
  exact ⟨fun _ => rfl, Eq.symm, Eq.trans⟩

theorem Held.toldApart (hs : Held heap s os) (ht : Held heap t ot)
    (hnodup : (heap.map Prod.snd).Nodup) : ToldApart s t os ot where
  sizes := by
    rw [Sequence.size_eq_length, Sequence.size_eq_length, hs.length_eq, ht.length_eq]
    exact ⟨rfl, rfl⟩
  shared := hs.sharesNode_iff ht hnodup
  contents h := by
    obtain rfl := hs.eq_of_sharesNode ht h
    exact ⟨rfl, rfl⟩
  prefixes h := by
    obtain rfl := hs.eq_of_sharesNode ht h
    cases s.splitLast? with
    | none => exact .none
    | some split => exact .some (sharesNode_equivalence.refl split.1)
  empties hsempty htempty := by
    rw [Sequence.toList_inj.mp ((Sequence.isEmpty_iff.mp hsempty).trans
      (Sequence.isEmpty_iff.mp htempty).symm)]
    exact sharesNode_equivalence.refl t

variable [Glyphs]

section Steps

variable {bench : Bench Register} {step : Step Action} {i floor : Nat} {x : Elem}

theorem registers_copy (h : step.Does (.copy i)) (hs : bench.registers[i]? = some s) :
    (bench.step perform step).1.registers = bench.registers ++ [s] :=
  Bench.registers_of_make h fun _ => Bench.withRegister_of_getElem? hs _ _

/-- Appending, by the operation or by the fold. -/
theorem registers_append
    (h : step.Does (.append i x) ∨ ∃ floor, step.Does (.appendForward floor i x))
    (hs : bench.registers[i]? = some s) :
    (bench.step perform step).1.registers = bench.registers ++ [s.push ⟨bench.next, x⟩] := by
  rcases h with h | ⟨floor, h⟩
  · exact Bench.registers_of_make h fun _ => Bench.withRegister_of_getElem? hs _ _
  · exact Bench.registers_of_make h fun _ => Bench.withRegister_of_getElem? hs _ _

theorem registers_splitLast {node : Tagged Elem} (h : step.Does (.splitLast i))
    (hs : bench.registers[i]? = some (s.push node)) :
    (bench.step perform step).1.registers = bench.registers ++ [s] :=
  Bench.registers_of_make h fun _ => Bench.withRegister_of_getElem? hs _ _

theorem registers_appendLeft {node : Tagged Elem} (h : step.Does (.appendLeft floor i))
    (hs : bench.registers[i]? = some (s.push node)) :
    (bench.step perform step).1.registers
      = bench.registers ++ if floor ≤ s.size then [s] else [] := by
  by_cases hfloor : floor ≤ s.size
  · rw [if_pos hfloor]
    have hmake : ∀ context, perform bench context (.appendLeft floor i) = make s 0 := by
      intro context
      rw [perform, Bench.withRegister_of_getElem? hs, Sequence.leftInverse_push,
        if_neg (Nat.not_le.mpr (Nat.lt_succ_of_le hfloor))]
    exact Bench.registers_of_make h hmake
  · rw [if_neg hfloor, List.append_nil]
    have hrefused : ∀ context,
        perform bench context (.appendLeft floor i) = .answer .refused := by
      intro context
      rw [perform, Bench.withRegister_of_getElem? hs, Sequence.leftInverse_push,
        if_pos (Nat.succ_le_of_lt (Nat.lt_of_not_le hfloor))]
    exact Bench.registers_of_answer h hrefused

end Steps

theorem registers_run_append (items : List Elem) (steps more : List (Step Action)) :
    registers items (steps ++ more) = ((run items steps).1.run perform more).1.registers :=
  congrArg Bench.registers (Bench.run_append steps more)

/-- Registers of a run that end in one node are one sequence. -/
theorem registers_eq_of_sharesNode {items : List Elem} {steps : List (Step Action)} {i j : Nat}
    (hs : (registers items steps)[i]? = some s) (ht : (registers items steps)[j]? = some t)
    (hshares : s.sharesNode t = true) : s = t := by
  obtain ⟨heap, now, haccounted⟩ := accounted_run items steps
  obtain ⟨os, -, hos⟩ := exists_fits_of_getElem? haccounted.held hs
  obtain ⟨ot, -, hot⟩ := exists_fits_of_getElem? haccounted.held ht
  exact hos.eq_of_sharesNode hot hshares

/-- Over whole runs a register ends in the node of another exactly when the last append behind the
two is the same one. They then have the same elements, whether or not these are equal to themselves,
and their prefixes share a node again; all empty registers share theirs. A copy shares the node of
its source, and so does what is left when an appended element is taken off again. -/
theorem nodes_have_one_origin (items : List Elem) (steps : List (Step Action)) :
    (Equivalence fun s t : Register => s.sharesNode t = true)
    ∧ (registers items steps).length = (origins items steps).length
    ∧ (∀ (i j : Nat) (s t : Register) (os ot : List Origin),
        (registers items steps)[i]? = some s → (origins items steps)[i]? = some os →
        (registers items steps)[j]? = some t → (origins items steps)[j]? = some ot →
          ToldApart s t os ot)
    ∧ ∀ (i : Nat) (s : Register), (registers items steps)[i]? = some s →
        (∀ step : Step Action, step.Does (.copy i) →
          ∃ r, registers items (steps ++ [step]) = registers items steps ++ [r]
            ∧ r.sharesNode s = true)
        ∧ ∀ (grow : Step Action) (x : Elem),
          (grow.Does (.append i x) ∨ ∃ floor, grow.Does (.appendForward floor i x)) →
          ∃ r, registers items (steps ++ [grow]) = registers items steps ++ [r]
            ∧ r.items = s.items ++ [x]
            ∧ (∀ shrink : Step Action, shrink.Does (.splitLast (registers items steps).length) →
              ∃ p, registers items (steps ++ [grow, shrink]) = registers items steps ++ [r, p]
                ∧ p.sharesNode s = true)
            ∧ ∀ (shrink : Step Action) (floor : Nat),
              shrink.Does (.appendLeft floor (registers items steps).length) →
              if floor ≤ s.size then
                ∃ p, registers items (steps ++ [grow, shrink]) = registers items steps ++ [r, p]
                  ∧ p.sharesNode s = true
              else registers items (steps ++ [grow, shrink]) = registers items steps ++ [r] := by
  obtain ⟨heap, now, haccounted⟩ := accounted_run items steps
  have hheld := haccounted.held
  have hlength : (registers items steps).length = (origins items steps).length := hheld.length_eq
  refine ⟨sharesNode_equivalence, hlength, ?_, ?_⟩
  · intro i j s t os ot hs hos ht hot
    exact Held.toldApart (fits_of_getElem? hheld hs hos) (fits_of_getElem? hheld ht hot)
      haccounted.nodup
  · intro i s hs
    refine ⟨fun step hstep => ⟨s, ?_, sharesNode_equivalence.refl s⟩, fun grow x hgrow => ?_⟩
    · rw [registers_run_append]
      exact registers_copy hstep hs
    · let r : Register := s.push ⟨(run items steps).1.next, x⟩
      have hr : ((run items steps).1.step perform grow).1.registers
          = registers items steps ++ [r] := registers_append hgrow hs
      have hlast : ((run items steps).1.step perform grow).1.registers[
          (registers items steps).length]? = some r := by
        rw [hr, List.getElem?_concat_length]
      refine ⟨r, ?_, ?_, fun shrink hshrink => ?_, fun shrink floor hshrink => ?_⟩
      · rw [registers_run_append]
        exact hr
      · simp [r, TracedSequence.items]
      · refine ⟨s, ?_, sharesNode_equivalence.refl s⟩
        rw [registers_run_append]
        refine (registers_splitLast hshrink hlast).trans ?_
        rw [hr, List.append_assoc]
        rfl
      · have hregisters : registers items (steps ++ [grow, shrink])
            = registers items steps ++ [r] ++ if floor ≤ s.size then [s] else [] := by
          rw [registers_run_append, ← hr]
          exact registers_appendLeft hshrink hlast
        by_cases hfloor : floor ≤ s.size
        · rw [if_pos hfloor]
          refine ⟨s, ?_, sharesNode_equivalence.refl s⟩
          rw [hregisters, if_pos hfloor, List.append_assoc]
          rfl
        · rw [if_neg hfloor, hregisters, if_neg hfloor, List.append_nil]

/-- A sequence of a not-a-number shares the node of its copy without being equal to it, and not the
node of a sequence made of the same. -/
example :
    (run [.float .nan]
      [⟨.point 0, .ok (.copy 0)⟩, ⟨.point 0, .ok (.collect [.float .nan])⟩]).1.registers.map
        (fun s => (s.sharesNode (.extend .empty 0 [.float .nan]), s == s))
      = [(true, false), (true, false), (false, false)] :=
  rfl

end Program.OnSequences

end Biparse
