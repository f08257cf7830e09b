import Biparse.Grammar.Record
import Biparse.Proofs.Grammar.Printing
import Biparse.Proofs.Grammar.Reading
import Biparse.Proofs.PropertyMap.Recency

/-!
# Property maps as lists of entries

An entry is a sign and a word. A text is read as a property map exactly when it is some entries with
commas between them, and the map is what they write one after another (`properties_parse_iff`).

Printing goes the other way without the list: it takes from the map, over and over, the word it
finds under one of the two keys. What it takes depends on the map alone
(`PropertyMap.printedEntries`), and the rest must be empty (`properties_print`), so a map is printed
exactly when each of its bindings is one that an entry writes (`isEmpty_remainder_iff`).
-/

namespace Biparse

/-! ## Entries -/

/-- What an entry starts with; it says which property the word is written to. -/
inductive Sign where
  | plus
  | minus
deriving Repr, DecidableEq

namespace Sign

def mark : Sign → String
  | plus => "+"
  | minus => "-"

def key : Sign → String
  | plus => "a"
  | minus => "b"

def other : Sign → Sign
  | plus => minus
  | minus => plus

theorem key_inj {sign sign' : Sign} : sign.key = sign'.key ↔ sign = sign' := by
  cases sign <;> cases sign' <;> decide

theorem other_ne (sign : Sign) : sign.other ≠ sign := by
  cases sign <;> decide

theorem eq_or_eq_other (sign sign' : Sign) : sign' = sign ∨ sign' = sign.other := by
  cases sign <;> cases sign' <;> decide

end Sign

variable [Payloads]

/-- A word behind a sign. -/
structure Entry where
  sign : Sign
  word : Word

namespace Entry

/-- How an entry is written. -/
def text (e : Entry) : String := e.sign.mark ++ e.word.val

/-- What an entry writes to a property map. -/
def binding (e : Entry) : String × Value := (e.sign.key, .string e.word.val)

end Entry

/-! ## Maps that entries write -/

/-- The word that a value holds as a text. -/
def Value.word? (v : Value) : Option Word :=
  (v.downcast? .string).bind fun text => if h : IsWord text then some ⟨text, h⟩ else none

theorem Value.word?_eq_some_iff {v : Value} {w : Word} : v.word? = some w ↔ v = .string w.val := by
  rw [show v.word? = (v.downcast? .string).bind Word.ofText? from rfl]
  simp only [Option.bind_eq_some_iff, Word.ofText?_eq_some_iff, exists_eq_right]
  exact Value.downcast?_eq_some_iff

namespace PropertyMap

/-- Every binding is one that an entry writes. -/
def Writable (m : PropertyMap Value) : Prop :=
  ∀ key value, m.get? key = some value → ∃ e : Entry, e.binding = (key, value)

/-- The entry of a sign that a map binds. -/
def signed? (m : PropertyMap Value) (sign : Sign) : Option Entry :=
  ((m.get? sign.key).bind Value.word?).map (Entry.mk sign)

theorem signed?_eq_some_iff {m : PropertyMap Value} {sign : Sign} {e : Entry} :
    m.signed? sign = some e ↔ e.sign = sign ∧ m.get? e.sign.key = some (.string e.word.val) := by
  simp only [signed?, Option.map_eq_some_iff, Option.bind_eq_some_iff, Value.word?_eq_some_iff]
  constructor
  · rintro ⟨w, ⟨v, hv, rfl⟩, rfl⟩
    exact ⟨rfl, hv⟩
  · rintro ⟨rfl, hv⟩
    exact ⟨e.word, ⟨_, hv, rfl⟩, rfl⟩

theorem signed?_erase (m : PropertyMap Value) (sign sign' : Sign) :
    (m.erase sign.key).signed? sign' = if sign' = sign then none else m.signed? sign' := by
  unfold signed?
  rw [get?_erase]
  by_cases h : sign' = sign <;> simp [h, Sign.key_inj]

/-- The sign whose entry printing takes from a map first and writes last. -/
def lastSign (swapped : Bool) : Sign := if swapped then .minus else .plus

/-- The entries that printing takes from a map, as they are written. -/
def printedEntries (swapped : Bool) (m : PropertyMap Value) : List Entry :=
  (m.signed? (lastSign swapped).other).toList ++ (m.signed? (lastSign swapped)).toList

theorem mem_printedEntries_iff {swapped : Bool} {m : PropertyMap Value} {e : Entry} :
    e ∈ m.printedEntries swapped ↔ m.get? e.sign.key = some (.string e.word.val) := by
  simp only [printedEntries, List.mem_append, Option.mem_toList, signed?_eq_some_iff]
  rw [← or_and_right, and_iff_right_iff_imp]
  exact fun _ => (Sign.eq_or_eq_other (lastSign swapped) e.sign).symm

/-- Each sign is printed at most once. -/
theorem nodup_sign_printedEntries (swapped : Bool) (m : PropertyMap Value) :
    ((m.printedEntries swapped).map Entry.sign).Nodup := by
  have hsign : ∀ sign, ((m.signed? sign).toList.map Entry.sign).Sublist [sign] := by
    intro sign
    cases hentry : m.signed? sign with
    | none => exact List.nil_sublist _
    | some e =>
        obtain ⟨rfl, -⟩ := signed?_eq_some_iff.mp hentry
        exact List.Sublist.refl _
  have hboth : [(lastSign swapped).other, lastSign swapped].Nodup := by
    simp [Sign.other_ne]
  rw [printedEntries, List.map_append]
  exact hboth.sublist ((hsign _).append (hsign _))

/-- Where all bindings are ones that entries write, the printed entries write them again. -/
theorem get?_ofList_printedEntries {m : PropertyMap Value} (hwritable : m.Writable) (swapped : Bool)
    (key : String) :
    (ofList ((m.printedEntries swapped).map Entry.binding)).get? key = m.get? key := by
  have hmem : ∀ key value, (key, value) ∈ (m.printedEntries swapped).map Entry.binding ↔
      m.get? key = some value := by
    intro key value
    simp only [List.mem_map, mem_printedEntries_iff]
    constructor
    · rintro ⟨e, he, hbinding⟩
      obtain ⟨rfl, rfl⟩ := Prod.mk.inj hbinding
      exact he
    · intro hvalue
      obtain ⟨e, he⟩ := hwritable key value hvalue
      obtain ⟨rfl, rfl⟩ := Prod.mk.inj he
      exact ⟨e, hvalue, rfl⟩
  ext value
  rw [get?_ofList_eq_some_iff, hmem]
  intro key v w hv hw
  exact Option.some.inj (((hmem key v).mp hv).symm.trans ((hmem key w).mp hw))

/-- The map without the entries that printing takes from it. -/
def remainder (swapped : Bool) (m : PropertyMap Value) : PropertyMap Value :=
  m.eraseAll ((m.printedEntries swapped).map (·.sign.key))

/-- All bindings are taken exactly when each is one that an entry writes. -/
theorem isEmpty_remainder_iff {swapped : Bool} {m : PropertyMap Value} :
    (m.remainder swapped).isEmpty = true ↔ m.Writable := by
  have hkeys : ∀ key, key ∈ (m.printedEntries swapped).map (·.sign.key) ↔
      ∃ e : Entry, e.sign.key = key ∧ m.get? key = some (.string e.word.val) := by
    intro key
    simp only [List.mem_map, mem_printedEntries_iff]
    constructor
    · rintro ⟨e, he, rfl⟩
      exact ⟨e, rfl, he⟩
    · rintro ⟨e, rfl, he⟩
      exact ⟨e, he, rfl⟩
  simp only [isEmpty_iff, remainder, get?_eraseAll, hkeys, ite_eq_left_iff]
  constructor
  · intro hempty key value hvalue
    by_cases hentry : ∃ e : Entry, e.sign.key = key ∧ m.get? key = some (.string e.word.val)
    · obtain ⟨e, rfl, he⟩ := hentry
      exact ⟨e, Prod.ext rfl (Option.some.inj (he.symm.trans hvalue))⟩
    · rw [hempty key hentry] at hvalue
      cases hvalue
  · intro hwritable key hnone
    cases hvalue : m.get? key with
    | none => rfl
    | some value =>
        obtain ⟨e, he⟩ := hwritable key value hvalue
        obtain ⟨rfl, rfl⟩ := Prod.mk.inj he
        exact absurd ⟨e, rfl, hvalue⟩ hnone

end PropertyMap

namespace Grammar

/-- One entry of either sign. -/
def signedEntry (swapped : Bool) : Reduction (PropertyMap Value) (PropertyMap Value) :=
  .choice swapped (propertyEntry Sign.plus.mark Sign.plus.key)
    (propertyEntry Sign.minus.mark Sign.minus.key)

/-! ## Reading -/

section Reading

variable {key : String} {m : PropertyMap Value} {s : Stream}

theorem textValue_readsWords : textValue.ReadsWords "" Value.string :=
  Rule.ReadsWords.word.reduce_apply fun _ _ => rfl

/-- An entry of a mark reads the mark and a word as it is written. -/
theorem readsAs_propertyEntry (mark key : String) :
    ReadsAs (propertyEntry mark key).parse (fun w : Word => (mark ++ w.val).toList)
      (fun m w => some (m.insert key (.string w.val))) EndsWord := by
  have hmark := textValue_readsWords.prefixed mark
  rw [String.append_empty] at hmark
  exact hmark.readsAs_put fun _ _ _ => rfl

/-- An entry of one sign is not read as one of the other. -/
theorem propertyEntry_of_other {sign : Sign} {rest : List Char}
    (hrest : s.rest = sign.mark.toList ++ rest) :
    (propertyEntry sign.other.mark key).parse m s = (none, s) := by
  have heat : s.eat? sign.other.mark.toList = none := by
    rw [Stream.eat?, hrest, if_neg]
    cases sign <;> simp [Sign.mark, Sign.other]
  simp only [propertyEntry, Reduction.parse, Rule.parse, heat]

/-- A signed entry reads the entries as they are written, whatever order it prints in. -/
theorem readsAs_signedEntry (swapped : Bool) :
    ReadsAs (signedEntry swapped).parse (fun e : Entry => e.text.toList)
      (fun m e => some (m.insert e.sign.key (.string e.word.val))) EndsWord where
  text_ne_nil e := by
    obtain ⟨sign, w⟩ := e
    cases sign <;> simp [Entry.text, Sign.mark]
  read {m next e s tail} hstep hrest htail := by
    obtain rfl := Option.some.inj hstep
    have hown : (propertyEntry e.sign.mark e.sign.key).parse m s
        = (some (m.insert e.sign.key (.string e.word.val)), s.advance e.text.toList.length) :=
      (readsAs_propertyEntry _ _).read (e := e.word) rfl hrest htail
    rw [Entry.text, String.toList_append, List.append_assoc] at hrest
    have hother : (propertyEntry e.sign.other.mark e.sign.other.key).parse m s = (none, s) :=
      propertyEntry_of_other hrest
    obtain ⟨sign, w⟩ := e
    cases sign with
    | plus => simp only [signedEntry, Reduction.parse, hown]
    | minus =>
        simp only [Sign.other] at hother
        simp only [signedEntry, Reduction.parse, hother, Stream.rewind_self, hown]
  written {m next s s'} h := by
    simp only [signedEntry, Reduction.parse] at h
    rcases hplus : (propertyEntry Sign.plus.mark Sign.plus.key).parse m s with ⟨_ | value, after⟩
    · have hrestores := Reduction.parse_restores (propertyEntry Sign.plus.mark Sign.plus.key) m s
      rw [hplus] at h hrestores
      obtain rfl : after = s := hrestores
      simp only [Stream.rewind_self] at h
      rcases hminus : (propertyEntry Sign.minus.mark Sign.minus.key).parse m after with
        ⟨_ | value, after'⟩
      · simp [hminus] at h
      · rw [hminus] at h
        obtain ⟨rfl, rfl⟩ : value = next ∧ after' = s' := by simpa using h
        obtain ⟨w, hnext, hwritten⟩ := (readsAs_propertyEntry _ _).written hminus
        exact ⟨⟨.minus, w⟩, hnext, hwritten⟩
    · rw [hplus] at h
      obtain ⟨rfl, rfl⟩ : value = next ∧ after = s' := by simpa using h
      obtain ⟨w, hnext, hwritten⟩ := (readsAs_propertyEntry _ _).written hplus
      exact ⟨⟨.plus, w⟩, hnext, hwritten⟩

end Reading

/-- A text is read as a map exactly when it is entries with commas between them, and these write
the map. -/
theorem properties_parse_iff {swapped : Bool} {t : String} {m : PropertyMap Value} :
    (properties { swapped := swapped }).parseAll? t = some m ↔
      ∃ es : List Entry, t = ",".intercalate (es.map Entry.text)
        ∧ m = .ofList (es.map Entry.binding) := by
  have hcloses : ∀ es : List Entry,
      EndsWord (joined ",".toList (fun e : Entry => e.text.toList) false es) := by
    intro es
    cases es with
    | nil => exact endsWord_nil
    | cons e rest =>
        rw [joined_cons]
        exact endsWord_cons.mpr (by decide)
  have hwrites : ∀ es : List Entry,
      es.foldlM (fun m e => some (m.insert e.sign.key (.string e.word.val)))
        (PropertyMap.empty : PropertyMap Value) = some (.ofList (es.map Entry.binding)) := by
    intro es
    rw [PropertyMap.ofList, List.foldl_map]
    exact List.foldlM_pure
  have htext : ∀ es : List Entry, t.toList = ",".toList.intercalate (es.map (·.text.toList)) ↔
      t = ",".intercalate (es.map Entry.text) := by
    intro es
    rw [← String.toList_inj, String.toList_intercalate, List.map_map]
    rfl
  have hreads := readsAs_signedEntry swapped
  refine Iff.trans (parseAll?_join hreads hcloses _) (exists_congr fun es => ?_)
  rw [show (PropertyMap.initializer Value).supply (.empty 0) = .empty from rfl, hwrites, htext,
    Option.some.injEq, and_comm, eq_comm (a := m)]

/-- What a mapping makes of a text is what it makes of the map that the entries write. -/
theorem recordRule_parse_iff {R : Type} {swapped : Bool} {mapping : Mapping (PropertyMap Value) R}
    {t : String} {r : R} :
    (recordRule { swapped := swapped } mapping).parseAll? t = some r ↔
      ∃ es : List Entry, t = ",".intercalate (es.map Entry.text)
        ∧ mapping.forward ⟨0, byteCount t.toList⟩ (.ofList (es.map Entry.binding)) = .ok r := by
  simp only [recordRule, parseAll?_reduce_apply, Option.bind_eq_some_iff, properties_parse_iff,
    toOption_eq_some_iff]
  constructor
  · rintro ⟨_, ⟨es, ht, rfl⟩, hforward⟩
    exact ⟨es, ht, hforward⟩
  · rintro ⟨es, ht, hforward⟩
    exact ⟨_, ⟨es, ht, rfl⟩, hforward⟩

/-! ## Printing -/

theorem textValue_printsWords : textValue.PrintsWords "" Value.word? :=
  Rule.PrintsWords.word.reduce_apply (Value.erase .string)

theorem propertyEntry_print (mark key : String) (bound : Nat) (m : PropertyMap Value) :
    (propertyEntry mark key).print bound m
      = .ofOption (((m.get? key).bind Value.word?).map fun w =>
          (m.erase key, (mark ++ w.val).toList)) := by
  have hmark := textValue_printsWords.prefixed mark
  rw [String.append_empty] at hmark
  rw [propertyEntry, hmark.put_print]
  simp only [PropertyMap.putFold, Option.bind_some]
  cases m.get? key <;> rfl

/-- Printing takes the entry of the last sign, or else that of the other one. -/
theorem signedEntry_print (swapped : Bool) (bound : Nat) (m : PropertyMap Value) :
    (signedEntry swapped).print bound m
      = .ofOption (((m.signed? (PropertyMap.lastSign swapped)).or
          (m.signed? (PropertyMap.lastSign swapped).other)).map fun e =>
            (m.erase e.sign.key, e.text.toList)) := by
  have hsign : ∀ sign : Sign, (propertyEntry sign.mark sign.key).print bound m
      = .ofOption ((m.signed? sign).map fun e => (m.erase e.sign.key, e.text.toList)) := by
    intro sign
    rw [propertyEntry_print, PropertyMap.signed?, Option.map_map]
    rfl
  simp only [signedEntry, Reduction.print, hsign, Printed.ofOption_orElse, ← Option.map_or]
  cases swapped <;> rfl

/-- Printing takes the entries of a map one by one, each once. -/
theorem undone_signedEntry (swapped : Bool) (bound : Nat) (m : PropertyMap Value) :
    Undone (fun m => (signedEntry swapped).print bound m) m
      ((m.printedEntries swapped).map (·.text.toList)) (m.remainder swapped) := by
  generalize hlast : PropertyMap.lastSign swapped = last
  have hundo : ∀ m, (signedEntry swapped).print bound m
      = .ofOption (((m.signed? last).or (m.signed? last.other)).map fun e =>
          (m.erase e.sign.key, e.text.toList)) := hlast ▸ signedEntry_print swapped bound
  -- without an entry of the last sign there is at most the other one to take
  have hother : ∀ m : PropertyMap Value, m.signed? last = none →
      Undone (fun m => (signedEntry swapped).print bound m) m
        ((m.signed? last.other).toList.map (·.text.toList))
        (m.eraseAll ((m.signed? last.other).toList.map (·.sign.key))) := by
    intro m hnone
    cases hentry : m.signed? last.other with
    | none => exact .refused (by simp [hundo, hnone, hentry])
    | some e =>
        obtain ⟨hsign, -⟩ := PropertyMap.signed?_eq_some_iff.mp hentry
        have htaken : (signedEntry swapped).print bound m
            = .done (m.erase e.sign.key, e.text.toList) := by rw [hundo, hnone, hentry]; rfl
        refine Undone.item htaken (.refused ?_)
        simp [hundo, hsign, PropertyMap.signed?_erase, hnone]
  unfold PropertyMap.remainder PropertyMap.printedEntries
  rw [hlast]
  cases hentry : m.signed? last with
  | none => simpa using hother m hentry
  | some e =>
      obtain ⟨rfl, -⟩ := PropertyMap.signed?_eq_some_iff.mp hentry
      have hrest := hother (m.erase e.sign.key) (by simp [PropertyMap.signed?_erase])
      rw [PropertyMap.signed?_erase, if_neg e.sign.other_ne] at hrest
      have htaken : (signedEntry swapped).print bound m
          = .done (m.erase e.sign.key, e.text.toList) := by rw [hundo, hentry]; rfl
      simpa [PropertyMap.eraseAll] using Undone.item htaken hrest

/-- A map is printed as its entries with commas between them, unless something is left of it. -/
theorem properties_print (swapped : Bool) {bound : Nat} (hbound : 2 < bound)
    (m : PropertyMap Value) :
    (properties { swapped := swapped }).print bound m
      = if (m.remainder swapped).isEmpty
        then .done (",".intercalate ((m.printedEntries swapped).map Entry.text)).toList
        else .refused := by
  have hfew : ((m.printedEntries swapped).map (·.text.toList)).length < bound := by
    have hle : (m.printedEntries swapped).length ≤ 2 := by
      have hone := (m.signed? (PropertyMap.lastSign swapped)).length_toList_le
      have hother := (m.signed? (PropertyMap.lastSign swapped).other).length_toList_le
      simp only [PropertyMap.printedEntries, List.length_append]
      omega
    rw [List.length_map]
    omega
  have hjoin : (Reduction.join "," (signedEntry swapped)).print bound m
      = .done (m.remainder swapped, ",".toList.intercalate
          ((m.printedEntries swapped).map (·.text.toList))) := by
    rw [Reduction.print, undoItems_eq_of_undone (undone_signedEntry swapped bound m) hfew []]
    simp
  have hinitial : (Rule.initial (PropertyMap.initializer Value)).print bound (m.remainder swapped)
      = if (m.remainder swapped).isEmpty then .done [] else .refused := by
    rw [Rule.print]
    rfl
  have hreduce : (properties { swapped := swapped }).print bound m
      = (if (m.remainder swapped).isEmpty then .done [] else .refused) >>= fun headText =>
          .done (headText ++ ",".toList.intercalate
            ((m.printedEntries swapped).map (·.text.toList))) := by
    have hproperties : properties { swapped := swapped }
        = .reduce (.initial (PropertyMap.initializer Value)) (.join "," (signedEntry swapped)) :=
      rfl
    rw [hproperties, Rule.print, hjoin, ← hinitial]
    rfl
  rw [hreduce, String.toList_intercalate, List.map_map]
  cases (m.remainder swapped).isEmpty with
  | false => rfl
  | true => rfl

end Grammar

end Biparse
