import Biparse.Proofs.Grammar.Properties
import Biparse.Proofs.Record.Bijection
import Mathlib.Data.List.Perm.Subperm

/-!
# Items as lists of entries

An item and the property map it is made from say the same (`Item.BoundBy`): the map binds the texts
of the item to the keys of the two signs and nothing else. A creator that lists both properties
makes an item from exactly those maps (`forward_creator_iff`) and takes it apart into one
(`boundBy_decompose`), whatever the order of the list. With that, what is known of property maps
carries over to items.

Reading keeps the last word of each sign and forgets the others, so many texts make the same item;
printing chooses one of them, with each sign at most once.
-/

namespace Biparse

namespace Item

/-- The text that an item holds under the key of a sign. -/
def get (r : Item) : Sign → Option String
  | .plus => r.a
  | .minus => r.b

/-- The texts that are set are words. -/
def Printable (r : Item) : Prop := (∀ text ∈ r.a, IsWord text) ∧ ∀ text ∈ r.b, IsWord text

instance (r : Item) : Decidable r.Printable :=
  inferInstanceAs (Decidable ((∀ text ∈ r.a, IsWord text) ∧ ∀ text ∈ r.b, IsWord text))

/-- The texts that are set, each behind its sign. -/
def entryTexts (r : Item) : List String :=
  r.a.toList.map ("+" ++ ·) ++ r.b.toList.map ("-" ++ ·)

/-- An item as it is printed. -/
def written (swapped : Bool) (r : Item) : String :=
  ",".intercalate (if swapped then r.entryTexts else r.entryTexts.reverse)

/-- The word of the last entry of a sign. -/
def lastWord (sign : Sign) (es : List Entry) : Option String :=
  (es.reverse.find? (·.sign = sign)).map (·.word.val)

/-- The item of the last words. -/
def ofEntries (es : List Entry) : Item := ⟨lastWord .plus es, lastWord .minus es⟩

theorem printable_iff {r : Item} :
    r.Printable ↔ ∀ sign text, r.get sign = some text → IsWord text := by
  constructor
  · rintro ⟨ha, hb⟩ sign
    cases sign with
    | plus => exact ha
    | minus => exact hb
  · intro h
    exact ⟨h .plus, h .minus⟩

theorem get_ofEntries (es : List Entry) (sign : Sign) :
    (ofEntries es).get sign = lastWord sign es := by
  cases sign <;> rfl

theorem lastWord_eq_none_iff {sign : Sign} {es : List Entry} :
    lastWord sign es = none ↔ ∀ e ∈ es, e.sign ≠ sign := by
  simp [lastWord]

theorem printable_ofEntries (es : List Entry) : (ofEntries es).Printable := by
  rw [printable_iff]
  intro sign text htext
  rw [get_ofEntries] at htext
  obtain ⟨e, -, rfl⟩ := Option.map_eq_some_iff.mp htext
  exact e.word.property

/-- Lists both properties of items, and no others. -/
def ListsBoth (listed : List String) : Prop := ∀ p, p ∈ listed ↔ ∃ sign : Sign, sign.key = p

theorem listsBoth : ListsBoth ["a", "b"] := by
  intro p
  simp only [List.mem_cons, List.not_mem_nil, or_false]
  constructor
  · rintro (rfl | rfl)
    · exact ⟨.plus, rfl⟩
    · exact ⟨.minus, rfl⟩
  · rintro ⟨sign, rfl⟩
    cases sign with
    | plus => exact .inl rfl
    | minus => exact .inr rfl

/-! ## Items and the maps they are made from -/

variable [Payloads]

/-- The map binds the texts of the item that are set, and nothing else. -/
structure BoundBy (r : Item) (m : PropertyMap Value) : Prop where
  get? : ∀ sign : Sign, m.get? sign.key = (r.get sign).map .string
  only : ∀ key value, m.get? key = some value → ∃ sign : Sign, sign.key = key

namespace BoundBy

variable {r : Item} {m : PropertyMap Value}

theorem unique {r' : Item} (h : r.BoundBy m) (h' : r'.BoundBy m) : r = r' := by
  have hget : ∀ sign, r.get sign = r'.get sign := by
    intro sign
    have hsame := (h.get? sign).symm.trans (h'.get? sign)
    exact Option.map_injective (fun _ _ heq => Value.string_inj.mp heq) hsame
  obtain ⟨a, b⟩ := r
  obtain ⟨a', b'⟩ := r'
  exact congr (congrArg Item.mk (hget .plus)) (hget .minus)

theorem writable_iff (h : r.BoundBy m) : m.Writable ↔ r.Printable := by
  rw [printable_iff]
  constructor
  · intro hwritable sign text htext
    have hbound : m.get? sign.key = some (.string text) := by rw [h.get?, htext]; rfl
    obtain ⟨e, he⟩ := hwritable _ _ hbound
    obtain ⟨-, heq⟩ := Prod.mk.inj he
    exact Value.string_inj.mp heq ▸ e.word.property
  · intro hwords key value hvalue
    obtain ⟨sign, rfl⟩ := h.only key value hvalue
    rw [h.get?, Option.map_eq_some_iff] at hvalue
    obtain ⟨text, htext, rfl⟩ := hvalue
    exact ⟨⟨sign, text, hwords sign text htext⟩, rfl⟩

/-- The entries that are printed are the texts of the item behind their signs. -/
theorem texts_printedEntries (h : r.BoundBy m) (hwords : r.Printable) (swapped : Bool) :
    (m.printedEntries swapped).map Entry.text
      = if swapped then r.entryTexts else r.entryTexts.reverse := by
  have hsigned : ∀ sign : Sign, (m.signed? sign).toList.map Entry.text
      = (r.get sign).toList.map (sign.mark ++ ·) := by
    intro sign
    rw [PropertyMap.signed?, h.get?]
    cases htext : r.get sign with
    | none => rfl
    | some text =>
        have hisWord := printable_iff.mp hwords sign text htext
        have hword : (Value.string text).word? = some ⟨text, hisWord⟩ :=
          Value.word?_eq_some_iff.mpr rfl
        simp [hword, Entry.text]
  rw [PropertyMap.printedEntries, List.map_append, hsigned, hsigned]
  obtain ⟨a, b⟩ := r
  cases swapped with
  | true => rfl
  | false => cases a <;> cases b <;> rfl

end BoundBy

/-- Entries write the map of their last words. -/
theorem boundBy_ofList (es : List Entry) :
    (ofEntries es).BoundBy (.ofList (es.map Entry.binding)) where
  get? sign := by
    rw [get_ofEntries, PropertyMap.get?_ofList, ← List.map_reverse, lastWord]
    induction es.reverse with
    | nil => rfl
    | cons e rest ih =>
        rw [List.map_cons, List.lookup_cons, List.find?_cons]
        by_cases hsign : e.sign = sign
        · simp [Entry.binding, hsign]
        · have hkey : sign.key ≠ e.sign.key := fun heq => hsign (Sign.key_inj.mp heq).symm
          simp only [Entry.binding, beq_false_of_ne hkey, decide_eq_false hsign]
          exact ih
  only key value hvalue := by
    rw [PropertyMap.get?_ofList] at hvalue
    obtain ⟨e, -, he⟩ := List.mem_map.mp (List.mem_reverse.mp (mem_of_lookup_eq_some hvalue))
    exact ⟨e.sign, congrArg Prod.fst he⟩

theorem BoundBy.ofEntries_printedEntries {r : Item} {m : PropertyMap Value} (h : r.BoundBy m)
    (hwords : r.Printable) (swapped : Bool) : ofEntries (m.printedEntries swapped) = r := by
  have hsame := PropertyMap.get?_ofList_printedEntries (h.writable_iff.mpr hwords) swapped
  refine (boundBy_ofList _).unique ⟨fun sign => ?_, fun key value hvalue => ?_⟩
  · rw [hsame, h.get?]
  · exact h.only key value ((hsame key).symm.trans hvalue)

theorem BoundBy.written_eq {r : Item} {m : PropertyMap Value} (h : r.BoundBy m)
    (hwords : r.Printable) (swapped : Bool) :
    r.written swapped = ",".intercalate ((m.printedEntries swapped).map Entry.text) := by
  rw [written, h.texts_printedEntries hwords]

/-- The field that a sign stands for. -/
def field : Sign → OptionalField Item
  | .plus => fieldA
  | .minus => fieldB

theorem accessor?_eq_some_iff {p : String} {found : Accessor Item} :
    shape.accessor? p = some found ↔
      ∃ sign : Sign, sign.key = p ∧ (field sign).accessor = found := by
  rw [shape, RecordShape.accessor?_ofFields independent_fields.names_inj]
  constructor
  · rintro ⟨f, hf, hfound⟩
    rcases List.mem_pair.mp hf with rfl | rfl
    · exact ⟨.plus, hfound⟩
    · exact ⟨.minus, hfound⟩
  · rintro ⟨sign, hfound⟩
    cases sign with
    | plus => exact ⟨fieldA, List.mem_pair.mpr (.inl rfl), hfound⟩
    | minus => exact ⟨fieldB, List.mem_pair.mpr (.inr rfl), hfound⟩

theorem accessor?_key (sign : Sign) : shape.accessor? sign.key = some (field sign).accessor :=
  accessor?_eq_some_iff.mpr ⟨sign, rfl, rfl⟩

theorem read?_shape (r : Item) (sign : Sign) :
    shape.read? r sign.key = (r.get sign).map .string := by
  rw [RecordShape.read?, accessor?_key]
  cases sign with
  | plus => rfl
  | minus => rfl

/-! ## Creators of items -/

/-- The creator that such a list makes. -/
def creator (listed : List String) : RecordCreator Item :=
  .ofListed shape listed (fun _ => .ok blank) .reject

section Creator

variable {listed : List String}

theorem lawful_of_listsBoth (hlisted : ListsBoth listed) : shape.Lawful listed :=
  lawful_shape fun p hp => by
    obtain ⟨sign, rfl⟩ := (hlisted p).mp hp
    cases sign with
    | plus => exact .inl rfl
    | minus => exact .inr rfl

theorem new_eq_creator (hlisted : ListsBoth listed) :
    RecordCreator.new shape listed {} = .ok (creator listed) :=
  RecordCreator.new_eq_ok (lawful_of_listsBoth hlisted).registered rfl

theorem boundBy_decompose (hlisted : ListsBoth listed) (r : Item) :
    r.BoundBy ((creator listed).decompose r) where
  get? sign := by
    rw [creator, RecordCreator.get?_decompose, if_pos ((hlisted _).mpr ⟨sign, rfl⟩), read?_shape]
  only key value hvalue := by
    rw [creator, RecordCreator.get?_decompose] at hvalue
    by_cases hkey : key ∈ listed
    · exact (hlisted key).mp hkey
    · rw [if_neg hkey] at hvalue
      cases hvalue

/-- A map makes the item that it binds the texts of, and no other map makes an item. -/
theorem forward_creator_iff (hlisted : ListsBoth listed) {context : Span} {m : PropertyMap Value}
    {r : Item} : (creator listed).mapping.forward context m = .ok r ↔ r.BoundBy m := by
  have lawful := lawful_of_listsBoth hlisted
  have hunset : ∀ p ∈ listed, shape.read? blank p = none := by
    intro p hp
    obtain ⟨sign, rfl⟩ := (hlisted p).mp hp
    rw [read?_shape]
    cases sign <;> rfl
  have hbuilds : (∃ r', (creator listed).mapping.forward context m = .ok r') ↔
      ∀ key value, m.get? key = some value → shape.Accepts listed key value :=
    RecordCreator.forward_isOk_iff lawful rfl m
  have hmade : ∀ r', (creator listed).mapping.forward context m = .ok r' → r'.BoundBy m := by
    intro r' hforward
    refine ⟨fun sign => ?_, fun key value hvalue => ?_⟩
    · have hread := RecordCreator.read?_forward lawful rfl hunset hforward
        ((hlisted sign.key).mpr ⟨sign, rfl⟩)
      rw [← hread, read?_shape]
    · exact (hlisted key).mp (hbuilds.mp ⟨r', hforward⟩ key value hvalue).1
  refine ⟨hmade r, fun hbound => ?_⟩
  obtain ⟨r', hforward⟩ := hbuilds.mpr fun key value hvalue => by
    obtain ⟨sign, rfl⟩ := hbound.only key value hvalue
    rw [hbound.get?, Option.map_eq_some_iff] at hvalue
    obtain ⟨text, -, rfl⟩ := hvalue
    refine ⟨(hlisted _).mpr ⟨sign, rfl⟩, _, accessor?_key sign, ?_⟩
    cases sign <;> rfl
  rw [hbound.unique (hmade r' hforward)]
  exact hforward

end Creator

end Item

section AnyPayloads

variable [Payloads]

/-! ## Grammars of items -/

namespace Grammar

/-- Items made by a creator that lists both their properties. -/
def itemGrammar (swapped : Bool) (listed : List String) : Grammar Item :=
  ofCreator { swapped := swapped } (Item.creator listed)

section

variable {swapped : Bool} {listed : List String}

theorem items_eq_ok (hlisted : Item.ListsBoth listed) :
    items { swapped := swapped } listed {} = .ok (itemGrammar swapped listed) := by
  rw [items, Item.new_eq_creator hlisted]
  rfl

/-- A text is read as an item exactly when it is entries with commas between them, and the item is
that of the last words. -/
theorem itemGrammar_parse_iff (hlisted : Item.ListsBoth listed) {t : String} {r : Item} :
    (itemGrammar swapped listed).parse? t = some r ↔
      ∃ es : List Entry, t = ",".intercalate (es.map Entry.text) ∧ r = .ofEntries es := by
  rw [show (itemGrammar swapped listed).parse? t
    = (recordRule { swapped := swapped } (Item.creator listed).mapping).parseAll? t from rfl,
    recordRule_parse_iff]
  simp only [Item.forward_creator_iff hlisted]
  refine exists_congr fun es => and_congr_right fun _ => ?_
  constructor
  · intro hbound
    exact hbound.unique (Item.boundBy_ofList es)
  · rintro rfl
    exact Item.boundBy_ofList es

/-- Two looks take the two entries there can be, and one more finds that there are no others. -/
theorem two_lt_bound (swapped : Bool) (hlisted : Item.ListsBoth listed) (r : Item) :
    2 < (itemGrammar swapped listed).bound r := by
  have hproperties : (Item.creator listed).properties = listed :=
    RecordCreator.properties_ofListed (Item.lawful_of_listsBoth hlisted).registered _ _
  have hboth : [Sign.plus.key, Sign.minus.key] ⊆ (Item.creator listed).properties := by
    rw [hproperties, List.cons_subset, List.cons_subset]
    exact ⟨(hlisted _).mpr ⟨.plus, rfl⟩, (hlisted _).mpr ⟨.minus, rfl⟩, List.nil_subset _⟩
  have hlength := (List.subperm_of_subset (by decide) hboth).length_le
  rw [RecordCreator.properties, List.length_map] at hlength
  exact Nat.succ_le_succ hlength

/-- An item is printed as its map is: if its texts are words, and otherwise not at all. -/
theorem itemGrammar_print (hlisted : Item.ListsBoth listed) {bound : Nat} (hbound : 2 < bound)
    (r : Item) : (itemGrammar swapped listed).rule.print bound r
      = if r.Printable then .done (r.written swapped).toList else .refused := by
  have hsame := Item.boundBy_decompose hlisted r
  have hmap : (itemGrammar swapped listed).rule.print bound r
      = (properties { swapped := swapped }).print bound ((Item.creator listed).decompose r) := by
    simp [itemGrammar, ofCreator, recordRule, Rule.print, Reduction.print, RecordCreator.mapping]
  have hempty : (((Item.creator listed).decompose r).remainder swapped).isEmpty = true ↔
      r.Printable := PropertyMap.isEmpty_remainder_iff.trans hsame.writable_iff
  rw [hmap, properties_print swapped hbound]
  by_cases hwords : r.Printable
  · rw [if_pos (hempty.mpr hwords), if_pos hwords, hsame.written_eq hwords]
  · rw [if_neg (hempty.not.mpr hwords), if_neg hwords]

theorem itemGrammar_print? (hlisted : Item.ListsBoth listed) (r : Item) :
    (itemGrammar swapped listed).print? r
      = if r.Printable then some (r.written swapped) else none := by
  rw [Grammar.print?, itemGrammar_print hlisted (two_lt_bound swapped hlisted r)]
  by_cases hwords : r.Printable
  · rw [if_pos hwords, if_pos hwords]
    exact congrArg some String.ofList_toList
  · rw [if_neg hwords, if_neg hwords]
    rfl

theorem itemGrammar_parse_written (hlisted : Item.ListsBoth listed) {r : Item}
    (hwords : r.Printable) : (itemGrammar swapped listed).parse? (r.written swapped) = some r := by
  have hsame := Item.boundBy_decompose hlisted r
  exact (itemGrammar_parse_iff hlisted).mpr ⟨_, hsame.written_eq hwords swapped,
    (hsame.ofEntries_printedEntries hwords swapped).symm⟩

end

end Grammar

/-! ## Both directions -/

/-- Items made from both their properties are printed exactly when their texts are words: the set
ones behind their signs, the plus sign first, with a comma between two of them. Any larger bound
gives the same answer, and what is printed is read as the item. -/
theorem items_print_then_parse :
    ∃ g, Grammar.items { swapped := true } ["a", "b"] {} = .ok g ∧ ∀ r : Item,
      ((g.print? r).isSome ↔ r.Printable)
      ∧ (r.Printable → g.print? r = some (",".intercalate r.entryTexts)
        ∧ g.parse? (",".intercalate r.entryTexts) = some r)
      ∧ ∀ bound, g.bound r ≤ bound → g.rule.print bound r
        = if r.Printable then .done (",".intercalate r.entryTexts).toList else .refused := by
  have hlisted := Item.listsBoth
  refine ⟨_, Grammar.items_eq_ok hlisted, fun r => ?_⟩
  have hprint : (Grammar.itemGrammar true ["a", "b"]).print? r
      = if r.Printable then some (r.written true) else none := Grammar.itemGrammar_print? hlisted r
  refine ⟨?_, fun hwords => ⟨?_, Grammar.itemGrammar_parse_written hlisted hwords⟩, ?_⟩
  · rw [hprint]
    split <;> simp [*]
  · rw [hprint, if_pos hwords]
    rfl
  · intro bound hle
    have hbound := Nat.lt_of_lt_of_le (Grammar.two_lt_bound true hlisted r) hle
    exact Grammar.itemGrammar_print hlisted hbound r

/-- A text is read exactly when it is entries with single commas between them, and the item has for
each property the word of its last entry. The item is then printed with at most one entry for each
property; that text is read as the same item, and so it is printed again. -/
theorem items_parse_then_print :
    ∃ g, Grammar.items { swapped := true } ["a", "b"] {} = .ok g
      ∧ (∀ t r, g.parse? t = some r ↔
        ∃ es : List Entry, t = ",".intercalate (es.map Entry.text) ∧ r = .ofEntries es)
      ∧ ∀ t r, g.parse? t = some r → ∃ es : List Entry, (es.map Entry.sign).Nodup
        ∧ g.print? r = some (",".intercalate (es.map Entry.text))
        ∧ g.parse? (",".intercalate (es.map Entry.text)) = some r
        ∧ (g.parse? (",".intercalate (es.map Entry.text))).bind g.print?
          = some (",".intercalate (es.map Entry.text)) := by
  have hlisted := Item.listsBoth
  refine ⟨_, Grammar.items_eq_ok hlisted, fun t r => Grammar.itemGrammar_parse_iff hlisted,
    fun t r hparse => ?_⟩
  have hwords : r.Printable := by
    obtain ⟨es, -, rfl⟩ := (Grammar.itemGrammar_parse_iff hlisted).mp hparse
    exact Item.printable_ofEntries es
  have hsame := Item.boundBy_decompose hlisted r
  have hwritten := hsame.written_eq hwords true
  have hprint : (Grammar.itemGrammar true ["a", "b"]).print? r = some (r.written true) := by
    rw [Grammar.itemGrammar_print? hlisted, if_pos hwords]
  have hback : (Grammar.itemGrammar true ["a", "b"]).parse? (r.written true) = some r :=
    Grammar.itemGrammar_parse_written hlisted hwords
  have hagain : ((Grammar.itemGrammar true ["a", "b"]).parse? (r.written true)).bind
      (Grammar.itemGrammar true ["a", "b"]).print? = some (r.written true) := by
    rw [hback]
    exact hprint
  rw [hwritten] at hprint hback hagain
  exact ⟨_, PropertyMap.nodup_sign_printedEntries true _, hprint, hback, hagain⟩

end AnyPayloads

open scoped Payloads in
/-- A text whose first plus entry is overwritten. -/
example : (Grammar.itemGrammar true ["a", "b"]).parse? "+x,-y,+z" = some ⟨some "z", some "y"⟩ := by
  decide

end Biparse
