import Biparse.Json.Decode
import Biparse.Json.Reader
import Biparse.Json.Writer
import Biparse.Proofs.Text.Decimal
import Mathlib.Data.List.Forall2
import Mathlib.Data.List.Nodup

/-!
# What is written is read back

A document is plain when its numbers are integers in decimal digits and its texts and keys are
character strings. Every plain document is read back from its compact form (`parse?_write`), and the
values a record is made of are found in it again (`fields?_ofFields`, `optional?_map`).

Each reader takes exactly what the writer put down and leaves what follows it. Of a text that holds
because every character comes back from its escape as one piece (`readPieces_escapeChar`), of a
number because what follows does not go on with it (`EndsNumber`), and of a document by induction,
where the bound only has to reach the length of what was written.
-/

namespace Biparse.Json

open Decimal

/-- Numbers are integers in decimal digits, texts and keys are character strings. -/
inductive Plain : Json → Prop
  | null : Plain .null
  | bool (value : Bool) : Plain (.bool value)
  | number (n : Int) : Plain (ofInt n)
  | text (s : String) : Plain (ofString s)
  | array {items : List Json} : (∀ item ∈ items, Plain item) → Plain (.array items)
  | object {fields : List (Option String × Json)} : (∀ field ∈ fields, field.1.isSome = true) →
      (∀ field ∈ fields, Plain field.2) → Plain (.object fields)

theorem Plain.ofFields {fields : List (String × Json)} (h : ∀ field ∈ fields, field.2.Plain) :
    (ofFields fields).Plain := by
  refine .object (fun field hmem => ?_) (fun field hmem => ?_)
  · obtain ⟨field, -, rfl⟩ := List.mem_map.mp hmem
    rfl
  · obtain ⟨field, hfield, rfl⟩ := List.mem_map.mp hmem
    exact h field hfield

/-! ## Texts -/

/-- The piece stands for the character: it is the character, or the code unit of a control. -/
def Piece.Means (piece : Piece) (c : Char) : Prop :=
  piece = .char c ∨ piece = .unit c.toNat ∧ c.toNat < 0x20

theorem hexValue?_hexDigit : ∀ n < 16, hexValue? (hexDigit n) = some n := by decide

/-- The code unit of a control is read from its four digits. -/
theorem unit?_control {n : Nat} (h : n < 0x20) :
    unit? '0' '0' (hexDigit (n / 16)) (hexDigit (n % 16)) = some n := by
  have hzero : hexValue? '0' = some 0 := rfl
  simp only [unit?, hzero, hexValue?_hexDigit (n / 16) (by omega),
    hexValue?_hexDigit (n % 16) (by omega)]
  exact congrArg some (by omega)

theorem readPieces_short {e c : Char} (h : shortEscape? e = some c) (rest : List Char) :
    readPieces ('\\' :: e :: rest)
      = (readPieces rest).map fun read => (.char c :: read.1, read.2) := by
  have he : e ≠ 'u' := by
    rintro rfl
    cases h
  rw [readPieces.eq_4 _ _ (by simp [he]), h]
  cases readPieces rest <;> rfl

theorem readPieces_plain {c : Char} (hquote : c ≠ '"') (hbackslash : c ≠ '\\')
    (hcontrol : ¬ c.toNat < 0x20) (rest : List Char) :
    readPieces (c :: rest) = (readPieces rest).map fun read => (.char c :: read.1, read.2) := by
  rw [readPieces.eq_5 _ _ (by simpa) (by simp [hbackslash]) (by simp [hbackslash]),
    if_neg (by simp [hbackslash, hcontrol])]
  cases readPieces rest <;> rfl

theorem readPieces_escapeChar (c : Char) :
    ∃ piece : Piece, piece.Means c ∧ ∀ rest, readPieces (escapeChar c ++ rest)
      = (readPieces rest).map fun read => (piece :: read.1, read.2) := by
  unfold escapeChar
  split
  -- No short name: a control is given by its number, anything else stands for itself.
  case h_8 hquote hbackslash _ _ _ _ _ =>
    split
    · rename_i hcontrol
      refine ⟨.unit c.toNat, .inr ⟨rfl, hcontrol⟩, fun rest => ?_⟩
      simp only [List.cons_append, List.nil_append, readPieces, unit?_control hcontrol]
      cases readPieces rest <;> rfl
    · rename_i hcontrol
      exact ⟨.char c, .inl rfl, readPieces_plain hquote hbackslash hcontrol⟩
  all_goals exact ⟨.char _, .inl rfl, readPieces_short rfl⟩

/-- The code unit of a control is no half of a pair, whatever comes next. -/
theorem assemble_control {code : Nat} (h : code < 0x20) (pieces : List Piece) :
    assemble (.unit code :: pieces) = (assemble pieces).map (Char.ofNat code :: ·) := by
  have hhigh : isHigh code = false := by
    simp only [isHigh, Bool.and_eq_false_iff, decide_eq_false_iff_not]
    omega
  have hlow : isLow code = false := by
    simp only [isLow, Bool.and_eq_false_iff, decide_eq_false_iff_not]
    omega
  rw [assemble.eq_def]
  split <;> simp_all

theorem assemble_of_means {pieces : List Piece} {cs : List Char}
    (h : List.Forall₂ Piece.Means pieces cs) : assemble pieces = some cs := by
  induction h with
  | nil => rfl
  | cons hmeans _ ih =>
      rcases hmeans with rfl | ⟨rfl, hcontrol⟩
      · rw [assemble, ih, Option.map_some]
      · rw [assemble_control hcontrol, ih, Option.map_some, Char.ofNat_toNat]

theorem readPieces_written (cs rest : List Char) :
    ∃ pieces, List.Forall₂ Piece.Means pieces cs
      ∧ readPieces (cs.flatMap escapeChar ++ '"' :: rest) = some (pieces, rest) := by
  induction cs with
  | nil => exact ⟨[], .nil, rfl⟩
  | cons c cs ih =>
      obtain ⟨pieces, hmeans, hpieces⟩ := ih
      obtain ⟨piece, hpiece, hread⟩ := readPieces_escapeChar c
      refine ⟨piece :: pieces, .cons hpiece hmeans, ?_⟩
      rw [List.flatMap_cons, List.append_assoc, hread, hpieces, Option.map_some]

theorem readText_written (s : String) (rest : List Char) :
    readText (s.toList.flatMap escapeChar ++ '"' :: rest) = some (some s, rest) := by
  obtain ⟨pieces, hmeans, hpieces⟩ := readPieces_written s.toList rest
  simp only [readText, hpieces, Option.bind_eq_bind, Option.bind_some, assemble_of_means hmeans,
    Option.map_some, String.ofList_toList]

/-! ## Numbers -/

/-- What follows does not go on with a number. -/
def EndsNumber (rest : List Char) : Prop :=
  ∀ c ∈ rest.head?, c.isDigit = false ∧ c ≠ '.' ∧ c ≠ 'e' ∧ c ≠ 'E'

theorem readDigits_append {digits rest : List Char} (hne : digits ≠ [])
    (hall : ∀ c ∈ digits, c.isDigit = true) (hrest : EndsNumber rest) :
    readDigits (digits ++ rest) = some (digits, rest) := by
  have hsplit : rest.takeWhile Char.isDigit = [] ∧ rest.dropWhile Char.isDigit = rest := by
    cases rest with
    | nil => exact ⟨rfl, rfl⟩
    | cons c rest =>
        have hc : ¬ c.isDigit = true := by simp [(hrest c rfl).1]
        exact ⟨List.takeWhile_cons_of_neg hc, List.dropWhile_cons_of_neg hc⟩
  rw [readDigits, List.takeWhile_append_of_pos hall, List.dropWhile_append_of_pos hall, hsplit.1,
    hsplit.2, List.append_nil]
  cases digits with
  | nil => exact absurd rfl hne
  | cons c digits => rfl

theorem readWhole_toDigits (n : Nat) {rest : List Char} (hrest : EndsNumber rest) :
    readWhole (Nat.toDigits 10 n ++ rest) = some (Nat.toDigits 10 n, rest) := by
  have hread := readDigits_append Nat.toDigits_ne_nil (isDigit_of_mem_toDigits (n := n)) hrest
  by_cases hzero : n = 0
  · rw [hzero, Nat.toDigits_zero]
    rfl
  · have hhead := mt (head?_toDigits_eq_zero_iff n).mp hzero
    rw [readWhole.eq_2, hread]
    intro tail htail
    apply hhead
    rw [← List.head?_append_of_ne_nil _ Nat.toDigits_ne_nil, htail, List.head?_cons]

theorem readNumber_written (n : Int) {rest : List Char} (hrest : EndsNumber rest) :
    readNumber ((toString n).toList ++ rest) = some (toString n, rest) := by
  have hfraction : readFraction rest = some ([], rest) := by
    cases rest with
    | nil => rfl
    | cons c rest => exact readFraction.eq_2 _ fun _ h => (hrest c rfl).2.1 (List.cons.inj h).1
  have hexponent : readExponent rest = some ([], rest) := by
    cases rest with
    | nil => rfl
    | cons c rest => exact if_neg (not_or.mpr (hrest c rfl).2.2)
  rw [← String.ofList_toList (s := toString n)]
  cases n with
  | ofNat n =>
      have hunsigned : ∀ tail, Nat.toDigits 10 n ++ rest = '-' :: tail → False := by
        obtain ⟨c, digits, hn, hc⟩ := exists_toDigits_eq_cons n
        intro tail htail
        rw [hn] at htail
        obtain rfl : c = '-' := (List.cons.inj htail).1
        cases hc
      rw [toList_toString_ofNat, String.toList_ofList, readNumber.eq_2 _ hunsigned]
      simp only [readWhole_toDigits n hrest, hfraction, hexponent, Option.bind_eq_bind,
        Option.bind_some, List.nil_append, List.append_nil]
  | negSucc n =>
      rw [toList_toString_negSucc, String.toList_ofList, List.cons_append, readNumber.eq_1]
      simp only [readWhole_toDigits (n + 1) hrest, hfraction, hexponent, Option.bind_eq_bind,
        Option.bind_some, List.cons_append, List.nil_append, List.append_nil]

/-! ## Documents -/

theorem skipBlank_cons {c : Char} (h : isBlank c = false) (cs : List Char) :
    skipBlank (c :: cs) = c :: cs :=
  List.dropWhile_cons_of_neg (by simp [h])

/-- A number starts like no other document. -/
theorem exists_toString_eq_cons (n : Int) :
    ∃ c tail, (toString n).toList = c :: tail ∧ isBlank c = false
      ∧ c ∉ ['n', 't', 'f', '"', '[', '\x7b', ']'] := by
  have hdigit : ∀ c : Char, c.isDigit = true →
      isBlank c = false ∧ c ∉ ['n', 't', 'f', '"', '[', '\x7b', ']'] := by
    intro c hc
    have hne : ∀ d : Char, d.isDigit = false → c ≠ d := by
      rintro d hd rfl
      rw [hc] at hd
      cases hd
    constructor
    · simp [isBlank, hne ' ' rfl, hne '\t' rfl, hne '\n' rfl, hne '\r' rfl]
    · simp [hne 'n' rfl, hne 't' rfl, hne 'f' rfl, hne '"' rfl, hne '[' rfl, hne '\x7b' rfl,
        hne ']' rfl]
  cases n with
  | ofNat n =>
      obtain ⟨c, digits, hn, hc⟩ := exists_toDigits_eq_cons n
      exact ⟨c, digits, by rw [toList_toString_ofNat, hn], hdigit c hc⟩
  | negSucc n => exact ⟨'-', _, toList_toString_negSucc n, rfl, by decide⟩

/-- A plain document starts with a token, and not with the one that ends an array. -/
theorem Plain.render_eq_cons {j : Json} (h : j.Plain) :
    ∃ c tail, j.render = c :: tail ∧ isBlank c = false ∧ c ≠ ']' := by
  cases h with
  | null => exact ⟨_, _, rfl, rfl, by decide⟩
  | bool value => cases value <;> exact ⟨_, _, rfl, rfl, by decide⟩
  | number n =>
      obtain ⟨c, tail, hn, hblank, hc⟩ := exists_toString_eq_cons n
      refine ⟨c, tail, hn, hblank, ?_⟩
      rintro rfl
      exact hc (by decide)
  | text s => exact ⟨_, _, rfl, rfl, by decide⟩
  | array _ => exact ⟨_, _, rfl, rfl, by decide⟩
  | object _ _ => exact ⟨_, _, rfl, rfl, by decide⟩

/-- The document is read from its compact form, whatever comes after it. -/
def Reads (j : Json) : Prop :=
  ∀ n rest, j.render.length ≤ n → EndsNumber rest → readValue n (j.render ++ rest) = some (j, rest)

theorem endsNumber_cons {c : Char} (h : c ∈ [',', ']', '\x7d']) (rest : List Char) :
    EndsNumber (c :: rest) := by
  intro d hd
  obtain rfl : c = d := Option.some.inj hd
  obtain rfl | rfl | rfl : c = ',' ∨ c = ']' ∨ c = '\x7d' := by simpa using h
  all_goals exact ⟨rfl, by decide, by decide, by decide⟩

/-- A document is at least one character, so the first step is within the bound. -/
theorem reads_of_step {j : Json} (hne : j.render ≠ [])
    (h : ∀ bound rest, j.render.length ≤ bound + 1 → EndsNumber rest →
      readValue (bound + 1) (j.render ++ rest) = some (j, rest)) : j.Reads := by
  intro bound rest hbound hrest
  have hpos : 0 < j.render.length := List.length_pos_of_ne_nil hne
  obtain ⟨bound, rfl⟩ : ∃ b, bound = b + 1 := ⟨bound - 1, by omega⟩
  exact h bound rest hbound hrest

theorem reads_null : null.Reads := by
  refine reads_of_step nofun fun bound rest _ _ => ?_
  simp only [render, List.cons_append, List.nil_append, readValue, skipBlank_cons (c := 'n') rfl]

theorem reads_bool (value : Bool) : (bool value).Reads := by
  cases value
  · refine reads_of_step nofun fun bound rest _ _ => ?_
    simp only [render, List.cons_append, List.nil_append, readValue, skipBlank_cons (c := 'f') rfl]
  · refine reads_of_step nofun fun bound rest _ _ => ?_
    simp only [render, List.cons_append, List.nil_append, readValue, skipBlank_cons (c := 't') rfl]

theorem reads_number (n : Int) : (ofInt n).Reads := by
  obtain ⟨c, tail, hn, hblank, hc⟩ := exists_toString_eq_cons n
  have hrender : (ofInt n).render = c :: tail := hn
  refine reads_of_step (by simp [hrender]) fun bound rest _ hrest => ?_
  have hread := readNumber_written n hrest
  rw [hn] at hread
  rw [hrender, readValue, List.cons_append, skipBlank_cons hblank]
  -- The arms for the other documents ask for a first character no number has.
  split
  case h_7 =>
    rw [← List.cons_append, hread]
    rfl
  all_goals
    rename_i heq
    exact absurd (by simp [(List.cons.inj heq).1]) hc

theorem reads_text (s : String) : (ofString s).Reads := by
  have hrender : (ofString s).render = renderText s := rfl
  refine reads_of_step (by simp [hrender, renderText]) fun bound rest _ _ => ?_
  rw [hrender, renderText, List.cons_append, List.append_assoc, readValue, skipBlank_cons rfl]
  simp only [List.singleton_append, readText_written]
  rfl

theorem readItems_written {items : List Json} (hitems : ∀ item ∈ items, item.Reads)
    (hne : items ≠ []) {bound : Nat} (hbound : (renderItems items).length < bound)
    (rest : List Char) :
    readItems bound (renderItems items ++ ']' :: rest) = some (items, rest) := by
  induction items generalizing bound with
  | nil => exact absurd rfl hne
  | cons item more ih =>
      obtain ⟨bound, rfl⟩ : ∃ b, bound = b + 1 := ⟨bound - 1, by omega⟩
      have hitem := hitems item List.mem_cons_self
      cases more with
      | nil =>
          rw [renderItems] at hbound ⊢
          rw [readItems, hitem bound _ (by omega) (endsNumber_cons (by decide) rest)]
          simp only [Option.bind_eq_bind, Option.bind_some, skipBlank_cons (c := ']') rfl]
      | cons next more =>
          rw [renderItems, List.length_append, List.length_cons] at hbound
          have hmore : readItems bound (renderItems (next :: more) ++ ']' :: rest)
              = some (next :: more, rest) :=
            ih (fun item hmem => hitems item (List.mem_cons_of_mem _ hmem))
              (List.cons_ne_nil next more) (by omega)
          rw [renderItems, List.append_assoc, List.cons_append, readItems,
            hitem bound _ (by omega) (endsNumber_cons (by decide) _)]
          simp only [Option.bind_eq_bind, Option.bind_some, skipBlank_cons (c := ',') rfl, hmore]

theorem readFields_written {fields : List (Option String × Json)}
    (hkeys : ∀ field ∈ fields, field.1.isSome = true) (hvalues : ∀ field ∈ fields, field.2.Reads)
    (hne : fields ≠ []) {bound : Nat} (hbound : (renderFields fields).length < bound)
    (rest : List Char) :
    readFields bound (renderFields fields ++ '\x7d' :: rest) = some (fields, rest) := by
  induction fields generalizing bound with
  | nil => exact absurd rfl hne
  | cons field more ih =>
      obtain ⟨bound, rfl⟩ : ∃ b, bound = b + 1 := ⟨bound - 1, by omega⟩
      obtain ⟨key, value⟩ := field
      obtain ⟨key, rfl⟩ : ∃ text, key = some text :=
        Option.isSome_iff_exists.mp (hkeys _ List.mem_cons_self)
      have hvalue : value.Reads := hvalues _ List.mem_cons_self
      cases more with
      | nil =>
          simp only [renderFields, List.length_append, List.length_cons] at hbound
          have hread := hvalue bound _ (by omega) (endsNumber_cons (c := '\x7d') (by decide) rest)
          simp only [renderFields, renderText, Option.getD_some, List.cons_append,
            List.append_assoc, List.nil_append, readFields, skipBlank_cons (c := '"') rfl,
            readText_written, Option.bind_eq_bind, Option.bind_some, skipBlank_cons (c := ':') rfl,
            hread, skipBlank_cons (c := '\x7d') rfl]
      | cons next more =>
          simp only [renderFields, List.length_append, List.length_cons] at hbound
          have hmore : readFields bound (renderFields (next :: more) ++ '\x7d' :: rest)
              = some (next :: more, rest) :=
            ih (fun field hmem => hkeys field (List.mem_cons_of_mem _ hmem))
              (fun field hmem => hvalues field (List.mem_cons_of_mem _ hmem))
              (List.cons_ne_nil next more) (by omega)
          have hread := hvalue bound _ (by omega) (endsNumber_cons (c := ',') (by decide)
            (renderFields (next :: more) ++ '\x7d' :: rest))
          simp only [renderFields, renderText, Option.getD_some, List.cons_append,
            List.append_assoc, List.nil_append, readFields, skipBlank_cons (c := '"') rfl,
            readText_written, Option.bind_eq_bind, Option.bind_some, skipBlank_cons (c := ':') rfl,
            hread, skipBlank_cons (c := ',') rfl, hmore]

theorem renderItems_eq_cons {item : Json} (h : item.Plain) (more : List Json) :
    ∃ c tail, renderItems (item :: more) = c :: tail ∧ isBlank c = false ∧ c ≠ ']' := by
  obtain ⟨c, tail, hrender, hblank, hc⟩ := h.render_eq_cons
  cases more with
  | nil => exact ⟨c, tail, by rw [renderItems, hrender], hblank, hc⟩
  | cons next more =>
      exact ⟨c, _, by rw [renderItems, hrender, List.cons_append], hblank, hc⟩

theorem reads_array {items : List Json} (hplain : ∀ item ∈ items, item.Plain)
    (hitems : ∀ item ∈ items, item.Reads) : (Json.array items).Reads := by
  refine reads_of_step (by simp [render]) fun bound rest hbound _ => ?_
  rw [render, List.length_cons, List.length_append, List.length_singleton] at hbound
  rw [render, List.cons_append, List.append_assoc, List.singleton_append, readValue,
    skipBlank_cons rfl]
  cases items with
  | nil => simp only [renderItems, List.nil_append, skipBlank_cons (c := ']') rfl]
  | cons item more =>
      obtain ⟨c, tail, hrender, hblank, hc⟩ :=
        renderItems_eq_cons (hplain item List.mem_cons_self) more
      have hread : readItems bound (renderItems (item :: more) ++ ']' :: rest)
          = some (item :: more, rest) :=
        readItems_written hitems (List.cons_ne_nil item more) (by omega) rest
      rw [hrender, List.cons_append] at hread ⊢
      simp only [skipBlank_cons hblank]
      split
      · rename_i heq
        exact absurd (List.cons.inj heq).1 hc
      · rw [hread]
        rfl

theorem reads_object {fields : List (Option String × Json)}
    (hkeys : ∀ field ∈ fields, field.1.isSome = true)
    (hvalues : ∀ field ∈ fields, field.2.Reads) : (Json.object fields).Reads := by
  refine reads_of_step (by simp [render]) fun bound rest hbound _ => ?_
  rw [render, List.length_cons, List.length_append, List.length_singleton] at hbound
  rw [render, List.cons_append, List.append_assoc, List.singleton_append, readValue,
    skipBlank_cons rfl]
  cases fields with
  | nil => simp only [renderFields, List.nil_append, skipBlank_cons (c := '\x7d') rfl]
  | cons field more =>
      obtain ⟨tail, hrender⟩ : ∃ tail, renderFields (field :: more) = '"' :: tail := by
        cases more <;> exact ⟨_, rfl⟩
      have hread : readFields bound (renderFields (field :: more) ++ '\x7d' :: rest)
          = some (field :: more, rest) :=
        readFields_written hkeys hvalues (List.cons_ne_nil field more) (by omega) rest
      rw [hrender, List.cons_append] at hread ⊢
      simp only [skipBlank_cons (c := '"') rfl]
      split
      · rename_i heq
        exact absurd (List.cons.inj heq).1 (by decide)
      · rw [hread]
        rfl

theorem Plain.reads {j : Json} (h : j.Plain) : j.Reads := by
  induction h with
  | null => exact reads_null
  | bool value => exact reads_bool value
  | number n => exact reads_number n
  | text s => exact reads_text s
  | array hitems ih => exact reads_array hitems ih
  | object hkeys _ ih => exact reads_object hkeys ih

/-- A plain document is read from its compact form. -/
theorem parse?_write {j : Json} (h : j.Plain) : parse? j.write = some j := by
  have hread := h.reads (2 * j.render.length + 2) [] (by omega) nofun
  rw [List.append_nil] at hread
  simp only [parse?, write, String.toList_ofList, hread, Option.bind_eq_bind, Option.bind_some]
  rfl

/-! ## Taking values out again -/

theorem digitsValue_toDigits (n : Nat) : digitsValue (Nat.toDigits 10 n) = n := by
  have hfold : ∀ (digits : List Char) (value : Nat),
      digits.foldl (fun value c => value * 10 + (c.toNat - 48)) value
        = Nat.ofDigitChars 10 digits value := by
    intro digits
    induction digits with
    | nil => exact fun _ => rfl
    | cons c digits ih =>
        intro value
        rw [List.foldl_cons, ih, Nat.ofDigitChars_cons, Nat.mul_comm]
        rfl
  rw [digitsValue, hfold, Nat.ofDigitChars_ten_toDigits]

theorem offset?_ofNat {n : Nat} (h : n < UInt64.size) : offset? (ofNat n) = some n := by
  have hdigits : (toString n).toList = Nat.toDigits 10 n := toList_toString_ofNat n
  have hall : (Nat.toDigits 10 n).all Char.isDigit = true :=
    List.all_eq_true.mpr isDigit_of_mem_toDigits
  simp only [offset?, natBelow?, ofNat, hdigits, hall, digitsValue_toDigits, h, and_self, if_true]

theorem mapM_map_eq_some {α β : Type} (read : β → Option α) (write : α → β)
    (h : ∀ a, read (write a) = some a) (items : List α) :
    (items.map write).mapM read = some items := by
  induction items with
  | nil => rfl
  | cons a rest ih =>
      rw [List.map_cons, List.mapM_cons, h, ih]
      rfl

theorem keyed?_plain (fields : List (String × Json)) :
    keyed? (fields.map fun field => (some field.1, field.2)) = some fields := by
  refine mapM_map_eq_some _ _ ?_ fields
  exact fun _ => rfl

/-- Of an object with distinct keys each named field is found, or found missing. -/
theorem fields?_ofFields {fields : List (String × Json)} (h : (fields.map Prod.fst).Nodup)
    (names : List String) :
    fields? names (ofFields fields) = some (names.map fun name => fields.lookup name) := by
  have honce : ∀ name, (fields.filter (·.1 == name)).length ≤ 1 := by
    intro name
    have hcount := List.nodup_iff_count_le_one.mp h name
    rwa [List.count_eq_countP, List.countP_map, List.countP_eq_length_filter] at hcount
  have hall : (names.all fun name => decide ((fields.filter (·.1 == name)).length ≤ 1)) = true :=
    List.all_eq_true.mpr fun name _ => decide_eq_true (honce name)
  simp only [fields?, ofFields, keyed?_plain, Option.bind_eq_bind, Option.bind_some, hall, if_true]

theorem strings?_ofFields (entries : List (String × String)) :
    strings? (ofFields (entries.map fun entry => (entry.1, ofString entry.2))) = some entries := by
  simp only [strings?, ofFields, keyed?_plain, Option.bind_eq_bind, Option.bind_some]
  refine mapM_map_eq_some _ _ ?_ entries
  exact fun _ => rfl

/-- A value that may be missing is found as it was, when nothing is written as `null`. -/
theorem optional?_map {α : Type} {read : Json → Option α} {write : α → Json} {value : Option α}
    (hread : ∀ a ∈ value, read (write a) = some a) (hnull : ∀ a, write a ≠ .null) :
    optional? read (value.map write) = some value := by
  cases value with
  | none => rfl
  | some a =>
      rw [Option.map_some, optional?.eq_3 _ _ (hnull a), hread a rfl]
      rfl

end Biparse.Json
