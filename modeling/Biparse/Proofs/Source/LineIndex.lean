import Biparse.Source.LineIndex
import Mathlib.Data.List.Basic

/-!
# Lines and columns invert offsets

Offsets count bytes, so the statements are about the bytes of a text. The index is built from the
characters, and that comes to the same because the newline byte is in the encoding of no other
character (`newline_mem_utf8EncodeChar_iff`).

The line of an offset is the number of newlines below it, and the start of a line has as many
newlines below it as its number says (`newlinesBelow_of_lineStart?`). As that number never shrinks
from one offset to a later one, the order of line starts, the line of an offset and the absence of
newlines between the start of the line and the offset all come from comparing such numbers; no
induction on the text is needed again.

Offsets are located by a scan of the line starts. A binary search that is right about the sorted
starts leads to the same line (`Search.Right.holds`), and taking one from its insertion point, or
the line start from the offset, never falls below zero.
-/

namespace Biparse.LineIndex

/-- The bytes of a text. -/
def bytes (text : String) : List UInt8 := text.toUTF8.data.toList

/-- The byte of a newline. -/
def newline : UInt8 := 10

/-- Number of newlines at places below an offset. -/
def newlinesBelow (bytes : List UInt8) (offset : Nat) : Nat := (bytes.take offset).count newline

section NewlinesBelow

variable {bs : List UInt8} {a b q : Nat}

@[simp] theorem newlinesBelow_zero (bs : List UInt8) : newlinesBelow bs 0 = 0 := rfl

theorem newlinesBelow_cons_succ (byte : UInt8) (bs : List UInt8) (offset : Nat) :
    newlinesBelow (byte :: bs) (offset + 1)
      = newlinesBelow bs offset + if byte = newline then 1 else 0 := by
  rw [newlinesBelow, List.take_succ_cons, List.count_cons]
  simp only [beq_iff_eq]
  rfl

theorem newlinesBelow_mono (bs : List UInt8) (h : a ≤ b) : newlinesBelow bs a ≤ newlinesBelow bs b :=
  (List.take_sublist_take_left h).count_le newline

theorem newlinesBelow_le_count (bs : List UInt8) (offset : Nat) :
    newlinesBelow bs offset ≤ bs.count newline :=
  (List.take_sublist offset bs).count_le newline

theorem newlinesBelow_succ (h : bs[q]? = some newline) :
    newlinesBelow bs (q + 1) = newlinesBelow bs q + 1 := by
  rw [newlinesBelow, List.take_add_one, h, List.count_append]
  rfl

theorem lt_of_newlinesBelow_lt (h : newlinesBelow bs a < newlinesBelow bs b) : a < b :=
  Nat.lt_of_not_le fun hle => Nat.not_le_of_lt h (newlinesBelow_mono bs hle)

end NewlinesBelow

/-! ## Newlines as bytes -/

/-- Only a character that is one byte has a byte below 128. -/
theorem toNat_of_mem_utf8EncodeChar {c : Char} {byte : UInt8} (hmem : byte ∈ String.utf8EncodeChar c)
    (hlow : byte.toNat < 128) : byte.toNat = c.toNat := by
  simp only [String.utf8EncodeChar] at hmem
  split at hmem
  · rw [List.mem_singleton] at hmem
    rw [hmem, UInt8.toNat_ofNat', ← Char.toNat_val]
    omega
  · -- a longer encoding, of whichever length: its bytes have their top bit set
    exfalso
    revert hmem
    split <;> [skip; split] <;>
      simp only [List.mem_cons, List.not_mem_nil, or_false, ← UInt8.toNat_inj,
        UInt8.toNat_ofNat'] <;>
      omega

theorem newline_mem_utf8EncodeChar_iff {c : Char} :
    newline ∈ String.utf8EncodeChar c ↔ c = '\n' := by
  constructor
  · intro hmem
    have hcode := toNat_of_mem_utf8EncodeChar hmem (by decide)
    exact Char.toNat_inj.mp hcode.symm
  · rintro rfl
    decide

/-- The offsets just past each newline of bytes that start at `offset`. -/
def byteNewlineEnds (offset : Nat) : List UInt8 → List Nat
  | [] => []
  | byte :: rest =>
    if byte = newline then (offset + 1) :: byteNewlineEnds (offset + 1) rest
    else byteNewlineEnds (offset + 1) rest

theorem byteNewlineEnds_append (offset : Nat) (xs ys : List UInt8) :
    byteNewlineEnds offset (xs ++ ys)
      = byteNewlineEnds offset xs ++ byteNewlineEnds (offset + xs.length) ys := by
  induction xs generalizing offset with
  | nil => rfl
  | cons byte rest ih =>
      have hlength : offset + 1 + rest.length = offset + (byte :: rest).length := by
        rw [List.length_cons]
        omega
      rw [List.cons_append, byteNewlineEnds, byteNewlineEnds, ih, hlength]
      split <;> rfl

theorem byteNewlineEnds_of_notMem {offset : Nat} {xs : List UInt8} (h : newline ∉ xs) :
    byteNewlineEnds offset xs = [] := by
  induction xs generalizing offset with
  | nil => rfl
  | cons byte rest ih =>
      rw [List.mem_cons, not_or] at h
      rw [byteNewlineEnds, if_neg (Ne.symm h.1), ih h.2]

theorem newlineEnds_eq (offset : Nat) (cs : List Char) :
    newlineEnds offset cs = byteNewlineEnds offset (cs.flatMap String.utf8EncodeChar) := by
  induction cs generalizing offset with
  | nil => rfl
  | cons c rest ih =>
      rw [newlineEnds, List.flatMap_cons, byteNewlineEnds_append, String.length_utf8EncodeChar, ih]
      by_cases hc : c = '\n'
      · subst hc
        rfl
      · have hother : newline ∉ String.utf8EncodeChar c := mt newline_mem_utf8EncodeChar_iff.mp hc
        simp only [hc, if_false, byteNewlineEnds_of_notMem hother, List.nil_append]

theorem bytes_eq (text : String) : bytes text = text.toList.flatMap String.utf8EncodeChar := by
  rw [bytes, String.toUTF8_eq_toByteArray, ← String.utf8Encode_toList, List.utf8Encode,
    List.toList_data_toByteArray]

theorem length_newlineEnds (offset : Nat) (cs : List Char) :
    (newlineEnds offset cs).length = cs.count '\n' := by
  induction cs generalizing offset with
  | nil => rfl
  | cons c rest ih =>
      rw [newlineEnds, List.count_cons]
      by_cases hc : c = '\n'
      · simp [hc, ih]
      · simp [hc, ih]

theorem length_byteNewlineEnds (offset : Nat) (bs : List UInt8) :
    (byteNewlineEnds offset bs).length = bs.count newline := by
  induction bs generalizing offset with
  | nil => rfl
  | cons byte rest ih =>
      rw [byteNewlineEnds, List.count_cons]
      by_cases hbyte : byte = newline
      · simp [hbyte, ih]
      · simp [hbyte, ih]

theorem count_newline_bytes (text : String) :
    (bytes text).count newline = text.toList.count '\n' := by
  rw [← length_byteNewlineEnds 0, bytes_eq, ← newlineEnds_eq, length_newlineEnds]

/-- The end in place `i` is that of the newline with `i` others before it. -/
theorem getElem?_byteNewlineEnds {offset i p : Nat} {bs : List UInt8} :
    (byteNewlineEnds offset bs)[i]? = some p ↔
      ∃ q, p = offset + q + 1 ∧ bs[q]? = some newline ∧ newlinesBelow bs q = i := by
  induction bs generalizing offset i with
  | nil => simp [byteNewlineEnds]
  | cons byte rest ih =>
      have hplace : ∀ q, offset + 1 + q + 1 = offset + (q + 1) + 1 := by omega
      rw [byteNewlineEnds, ← Nat.or_exists_add_one]
      simp only [newlinesBelow_zero, newlinesBelow_cons_succ, List.getElem?_cons_zero,
        List.getElem?_cons_succ]
      by_cases hbyte : byte = newline
      · cases i with
        | zero => simp [hbyte, eq_comm]
        | succ i => simp [hbyte, ih, hplace]
      · simp [hbyte, ih, hplace]

/-! ## Line starts -/

section LineStarts

variable {text : String} {line start offset : Nat}

theorem lineStart?_zero (text : String) : (ofText text).lineStart? 0 = some 0 := rfl

/-- Every later line starts just past its newline. -/
theorem lineStart?_succ :
    (ofText text).lineStart? (line + 1) = some start ↔
      ∃ q, start = q + 1 ∧ (bytes text)[q]? = some newline
        ∧ newlinesBelow (bytes text) q = line := by
  rw [lineStart?, starts, List.getElem?_cons_succ, ofText, newlineEnds_eq, ← bytes_eq,
    getElem?_byteNewlineEnds]
  simp only [Nat.zero_add]

theorem lineCount_ofText (text : String) :
    (ofText text).lineCount = text.toList.count '\n' + 1 := by
  rw [lineCount, starts, List.length_cons, ofText, length_newlineEnds]

theorem exists_lineStart?_iff :
    (∃ start, (ofText text).lineStart? line = some start) ↔ line < (ofText text).lineCount := by
  simp only [lineStart?, lineCount, List.getElem?_eq_some_iff]
  exact ⟨fun ⟨_, h, _⟩ => h, fun h => ⟨_, h, rfl⟩⟩

/-- A line has as many newlines before it as its number says. -/
theorem newlinesBelow_of_lineStart? (h : (ofText text).lineStart? line = some start) :
    newlinesBelow (bytes text) start = line := by
  cases line with
  | zero =>
      obtain rfl : 0 = start := Option.some.inj h
      rfl
  | succ line =>
      obtain ⟨q, rfl, hq, hline⟩ := lineStart?_succ.mp h
      rw [newlinesBelow_succ hq, hline]

theorem lineStart?_lt {i j p r : Nat} (hij : i < j) (hi : (ofText text).lineStart? i = some p)
    (hj : (ofText text).lineStart? j = some r) : p < r := by
  have hbelow : newlinesBelow (bytes text) p < newlinesBelow (bytes text) r := by
    rwa [newlinesBelow_of_lineStart? hi, newlinesBelow_of_lineStart? hj]
  exact lt_of_newlinesBelow_lt hbelow

theorem lineStart?_le {i j p r : Nat} (hij : i ≤ j) (hi : (ofText text).lineStart? i = some p)
    (hj : (ofText text).lineStart? j = some r) : p ≤ r := by
  rcases Nat.lt_or_eq_of_le hij with hlt | rfl
  · exact Nat.le_of_lt (lineStart?_lt hlt hi hj)
  · exact Nat.le_of_eq (Option.some.inj (hi.symm.trans hj))

end LineStarts

/-! ## The line an offset is on -/

/-- The line starts at or before the offset, and the next one, if there is one, after it. -/
structure Holds (index : LineIndex) (offset line start : Nat) : Prop where
  start_eq : index.lineStart? line = some start
  start_le : start ≤ offset
  lt_next : ∀ next, index.lineStart? (line + 1) = some next → offset < next

theorem exists_locate {index : LineIndex} {offset line start : Nat} {later : List Nat}
    (hlater : index.starts.drop line = start :: later) (hstart : start ≤ offset) :
    ∃ l p, locate offset line start later = (l, offset - p) ∧ index.Holds offset l p := by
  have hline : index.lineStart? line = some start := by
    rw [lineStart?, ← List.head?_drop, hlater, List.head?_cons]
  have hnext : index.starts.drop (line + 1) = later := by
    rw [← List.tail_drop, hlater, List.tail_cons]
  induction later generalizing line start with
  | nil =>
      refine ⟨line, start, rfl, hline, hstart, ?_⟩
      intro next h
      rw [lineStart?, ← List.head?_drop, hnext] at h
      cases h
  | cons next rest ih =>
      have hlineNext : index.lineStart? (line + 1) = some next := by
        rw [lineStart?, ← List.head?_drop, hnext, List.head?_cons]
      rw [locate]
      split
      · rename_i hle
        refine ih hnext hle hlineNext ?_
        rw [← List.tail_drop, hnext, List.tail_cons]
      · rename_i hgt
        refine ⟨line, start, rfl, hline, hstart, ?_⟩
        intro other h
        obtain rfl := Option.some.inj (hlineNext.symm.trans h)
        exact Nat.lt_of_not_le hgt

theorem exists_lineColumn (index : LineIndex) (offset : Nat) :
    ∃ l p, index.lineColumn offset = (l, offset - p) ∧ index.Holds offset l p :=
  exists_locate rfl (Nat.zero_le offset)

section Holds

variable {text : String} {offset line start : Nat}

/-- A line more would start below the offset, if there were a newline more. -/
theorem Holds.line_eq (h : (ofText text).Holds offset line start) :
    line = newlinesBelow (bytes text) offset := by
  apply Nat.le_antisymm
  · rw [← newlinesBelow_of_lineStart? h.start_eq]
    exact newlinesBelow_mono _ h.start_le
  · by_contra hlt
    have hcount : line + 1 < (ofText text).lineCount := by
      have hbelow := newlinesBelow_le_count (bytes text) offset
      rw [lineCount_ofText, ← count_newline_bytes]
      omega
    obtain ⟨next, hnext⟩ := exists_lineStart?_iff.mpr hcount
    obtain ⟨q, rfl, -, hq⟩ := lineStart?_succ.mp hnext
    have hoffset : offset ≤ q := Nat.le_of_lt_succ (h.lt_next _ hnext)
    exact hlt (hq ▸ newlinesBelow_mono _ hoffset)

theorem Holds.unique (h : (ofText text).Holds offset line start) {line' start' : Nat}
    (h' : (ofText text).Holds offset line' start') : line = line' ∧ start = start' := by
  obtain rfl : line = line' := h.line_eq.trans h'.line_eq.symm
  exact ⟨rfl, Option.some.inj (h.start_eq.symm.trans h'.start_eq)⟩

theorem Holds.getElem?_ne (h : (ofText text).Holds offset line start) {q : Nat} (hq : start ≤ q)
    (hoffset : q < offset) : (bytes text)[q]? ≠ some newline := by
  intro hnewline
  have habove := newlinesBelow_mono (bytes text) hq
  have hbelow := newlinesBelow_mono (bytes text) hoffset
  rw [Nat.succ_eq_add_one, newlinesBelow_succ hnewline, ← h.line_eq] at hbelow
  rw [newlinesBelow_of_lineStart? h.start_eq] at habove
  omega

/-- Further along in the text is further down, or further to the right on the same line. -/
theorem Holds.before {offset' line' start' : Nat} (h : (ofText text).Holds offset line start)
    (h' : (ofText text).Holds offset' line' start') (hlt : offset < offset') :
    line < line' ∨ line = line' ∧ offset - start < offset' - start' := by
  have hle : line ≤ line' := by
    rw [h.line_eq, h'.line_eq]
    exact newlinesBelow_mono _ (Nat.le_of_lt hlt)
  rcases Nat.lt_or_eq_of_le hle with hline | rfl
  · exact .inl hline
  · obtain rfl := Option.some.inj (h.start_eq.symm.trans h'.start_eq)
    have hstart := h.start_le
    exact .inr ⟨rfl, by omega⟩

end Holds

/-! ## Binary search -/

/-- What a binary search of the line starts answers: the place of the offset, or the place where it
would have to go. -/
inductive Search where
  | found (place : Nat)
  | missing (place : Nat)

namespace Search

/-- The line that an answer leads to. -/
def line : Search → Nat
  | found place => place
  | missing place => place - 1

/-- The answer is right about an offset among starts in strictly increasing order. -/
def Right (starts : List Nat) (offset : Nat) : Search → Prop
  | found place => starts[place]? = some offset
  | missing place => place ≤ starts.length
    ∧ ∀ i start, starts[i]? = some start → if i < place then start < offset else offset < start

variable {text : String} {offset : Nat} {answer : Search}

theorem Right.place_pos {place : Nat} (h : Right (ofText text).starts offset (missing place)) :
    0 < place := by
  have hzero := h.2 0 0 (lineStart?_zero text)
  split at hzero
  · assumption
  · exact absurd hzero (Nat.not_lt_zero offset)

theorem Right.holds (h : Right (ofText text).starts offset answer) :
    ∃ start, (ofText text).Holds offset answer.line start := by
  cases answer with
  | found place =>
      have hplace : (ofText text).lineStart? place = some offset := h
      refine ⟨offset, hplace, Nat.le_refl offset, ?_⟩
      intro next hnext
      exact lineStart?_lt (Nat.lt_succ_self place) hplace hnext
  | missing place =>
      have hpos := h.place_pos
      obtain ⟨hplace, hsides⟩ := h
      have hcount : place - 1 < (ofText text).lineCount := by
        rw [lineCount]
        omega
      obtain ⟨start, hstart⟩ := exists_lineStart?_iff.mpr hcount
      refine ⟨start, hstart, ?_, ?_⟩
      · have hside := hsides _ _ hstart
        rw [if_pos (by omega)] at hside
        exact Nat.le_of_lt hside
      · intro next hnext
        have hside := hsides _ _ hnext
        rwa [line, if_neg (by omega)] at hside

/-- The place past the line of an offset is where the offset would have to go. -/
theorem exists_right (text : String) (offset : Nat) :
    ∃ answer, Right (ofText text).starts offset answer := by
  obtain ⟨l, p, -, h⟩ := exists_lineColumn (ofText text) offset
  by_cases hp : p = offset
  · subst hp
    exact ⟨found l, h.start_eq⟩
  · refine ⟨missing (l + 1), exists_lineStart?_iff.mp ⟨p, h.start_eq⟩, ?_⟩
    intro i start hi
    split
    · rename_i hle
      have hstart := lineStart?_le (Nat.le_of_lt_succ hle) hi h.start_eq
      have hoffset := h.start_le
      omega
    · rename_i hgt
      have hle : l + 1 ≤ i := Nat.le_of_not_lt hgt
      have hcount : l + 1 < (ofText text).lineCount :=
        Nat.lt_of_le_of_lt hle (exists_lineStart?_iff.mp ⟨start, hi⟩)
      obtain ⟨next, hnext⟩ := exists_lineStart?_iff.mpr hcount
      exact Nat.lt_of_lt_of_le (h.lt_next next hnext) (lineStart?_le hle hnext hi)

end Search

/-- Lines and columns of a text, at any offset. The line is the number of newlines below the offset;
it starts at or before the offset, the column is the distance from its start, and no newline lies
between. There is a line more than there are newlines; the first starts at 0, each other one past
its newline, in strictly increasing order, and so a later offset is on a later line or further right
on the same one. A binary search that is right about the starts leads to the same line and column by
subtractions that never fall short. -/
theorem lines_invert_offsets (text : String) :
    (∀ offset l c, (ofText text).lineColumn offset = (l, c) →
      l = newlinesBelow (bytes text) offset
      ∧ ∃ p, (ofText text).lineStart? l = some p ∧ p ≤ offset ∧ c = offset - p
        ∧ ∀ q, p ≤ q → q < offset → (bytes text)[q]? ≠ some newline)
    ∧ (ofText text).lineCount = text.toList.count '\n' + 1
    ∧ (∀ i, (∃ p, (ofText text).lineStart? i = some p) ↔ i < (ofText text).lineCount)
    ∧ (ofText text).lineStart? 0 = some 0
    ∧ (∀ i p, (ofText text).lineStart? (i + 1) = some p ↔
      ∃ q, p = q + 1 ∧ (bytes text)[q]? = some newline ∧ newlinesBelow (bytes text) q = i)
    ∧ (∀ i j p r, i < j → (ofText text).lineStart? i = some p →
      (ofText text).lineStart? j = some r → p < r)
    ∧ (∀ offset offset' l c l' c', offset < offset' →
      (ofText text).lineColumn offset = (l, c) → (ofText text).lineColumn offset' = (l', c') →
      l < l' ∨ l = l' ∧ c < c')
    ∧ ∀ offset, (∃ answer, Search.Right (ofText text).starts offset answer)
      ∧ ∀ answer, Search.Right (ofText text).starts offset answer →
        (∀ place, answer = .missing place → 1 ≤ place)
        ∧ ∃ p, (ofText text).lineStart? answer.line = some p ∧ p ≤ offset
          ∧ (ofText text).lineColumn offset = (answer.line, offset - p) := by
  have hline : ∀ {offset l c}, (ofText text).lineColumn offset = (l, c) →
      ∃ p, c = offset - p ∧ (ofText text).Holds offset l p := by
    intro offset l c h
    obtain ⟨l', p, heq, hholds⟩ := exists_lineColumn (ofText text) offset
    obtain ⟨rfl, rfl⟩ := Prod.mk.inj (heq.symm.trans h)
    exact ⟨p, rfl, hholds⟩
  refine ⟨?_, lineCount_ofText text, fun i => exists_lineStart?_iff, lineStart?_zero text,
    fun i p => lineStart?_succ, fun i j p r => lineStart?_lt, ?_, ?_⟩
  · intro offset l c h
    obtain ⟨p, rfl, hholds⟩ := hline h
    exact ⟨hholds.line_eq, p, hholds.start_eq, hholds.start_le, rfl, fun q => hholds.getElem?_ne⟩
  · intro offset offset' l c l' c' hlt h h'
    obtain ⟨p, rfl, hholds⟩ := hline h
    obtain ⟨p', rfl, hholds'⟩ := hline h'
    exact hholds.before hholds' hlt
  · intro offset
    refine ⟨Search.exists_right text offset, ?_⟩
    intro answer hright
    obtain ⟨p, hfound⟩ := hright.holds
    obtain ⟨l, p', heq, hholds⟩ := exists_lineColumn (ofText text) offset
    obtain ⟨rfl, rfl⟩ := hholds.unique hfound
    refine ⟨?_, p', hfound.start_eq, hfound.start_le, heq⟩
    rintro place rfl
    exact hright.place_pos

end Biparse.LineIndex
