import Biparse.Proofs.Source.LineIndex
import Mathlib.Algebra.Group.Nat.Defs
import Mathlib.Tactic.SplitIfs

/-!
# Texts are ordered like their bytes

Texts compare character by character, and characters by their codes. Comparing the encodings byte by
byte comes to the same (`bytes_lt_bytes`): of two characters either the first bytes decide, or both
encodings are of one length and agree on the bits of the first byte, and then the first of the
following bytes that differ decides (`continuation_append_lt`).
-/

namespace Biparse.Utf8

/-- The first byte of the encoding of a character with this code. -/
def leadByte (code : Nat) : Nat :=
  if code ≤ 0x7f then code
  else if code ≤ 0x7ff then code / 64 ^ 1 + 0xc0
  else if code ≤ 0xffff then code / 64 ^ 2 + 0xe0
  else code / 64 ^ 3 + 0xf0

/-- How many bytes follow the first one. -/
def followers (code : Nat) : Nat :=
  if code ≤ 0x7f then 0 else if code ≤ 0x7ff then 1 else if code ≤ 0xffff then 2 else 3

/-- The last bytes of an encoding. Each carries six bits of the code, the highest bits first. -/
def continuation (code : Nat) : Nat → List UInt8
  | 0 => []
  | count + 1 => UInt8.ofNat (code / 64 ^ count % 64 + 0x80) :: continuation code count

theorem toNat_val_lt (c : Char) : c.val.toNat < 0x110000 := by
  have hvalid := c.valid
  unfold UInt32.isValidChar Nat.isValidChar at hvalid
  omega

theorem leadByte_lt {code : Nat} (h : code < 0x110000) : leadByte code < 256 := by
  unfold leadByte
  split_ifs <;> omega

theorem utf8EncodeChar_eq (c : Char) :
    String.utf8EncodeChar c
      = UInt8.ofNat (leadByte c.val.toNat) :: continuation c.val.toNat (followers c.val.toNat) := by
  have hcode := toNat_val_lt c
  simp only [String.utf8EncodeChar]
  generalize c.val.toNat = code at *
  unfold leadByte followers
  split_ifs
  · rfl
  · rw [Nat.mod_eq_of_lt (by omega : code / 64 < 32)]
    simp [continuation]
  · rw [Nat.mod_eq_of_lt (by omega : code / 4096 < 16)]
    simp [continuation]
  · rw [Nat.mod_eq_of_lt (by omega : code / 262144 < 8)]
    simp [continuation]

/-! ## The order of encodings -/

theorem cons_ofNat_lt {a b : Nat} (ha : a < 256) (hb : b < 256) {s t : List UInt8}
    (h : a < b ∨ a = b ∧ s < t) : UInt8.ofNat a :: s < UInt8.ofNat b :: t := by
  rw [List.cons_lt_cons_iff, UInt8.ofNat_lt_iff_lt ha hb]
  rcases h with hlt | ⟨rfl, hrest⟩
  · exact .inl hlt
  · exact .inr ⟨rfl, hrest⟩

/-- The first bytes decide, unless they agree; then so do the lengths and the bits of the first
bytes. -/
theorem leadByte_lt_or {m n : Nat} (h : m < n) :
    leadByte m < leadByte n ∨ leadByte m = leadByte n ∧ followers m = followers n
      ∧ m / 64 ^ followers n = n / 64 ^ followers n := by
  unfold leadByte followers
  split_ifs <;> omega

/-- Among codes that agree on the higher bits the following bytes decide, whatever comes after. -/
theorem continuation_append_lt {m n : Nat} (h : m < n) (s t : List UInt8) {count : Nat}
    (hhigher : m / 64 ^ count = n / 64 ^ count) :
    continuation m count ++ s < continuation n count ++ t := by
  induction count with
  | zero =>
      rw [Nat.pow_zero, Nat.div_one, Nat.div_one] at hhigher
      exact absurd hhigher (Nat.ne_of_lt h)
  | succ count ih =>
      rw [Nat.pow_succ, ← Nat.div_div_eq_div_mul, ← Nat.div_div_eq_div_mul] at hhigher
      refine cons_ofNat_lt (by omega) (by omega) ?_
      rcases Nat.lt_or_eq_of_le (Nat.div_le_div_right (c := 64 ^ count) (Nat.le_of_lt h)) with
        hlt | heq
      · left
        omega
      · exact .inr ⟨by rw [heq], ih heq⟩

theorem utf8EncodeChar_append_lt {c d : Char} (h : c < d) (s t : List UInt8) :
    String.utf8EncodeChar c ++ s < String.utf8EncodeChar d ++ t := by
  have hcode : c.val.toNat < d.val.toNat := h
  rw [utf8EncodeChar_eq, utf8EncodeChar_eq]
  refine cons_ofNat_lt (leadByte_lt (toNat_val_lt c)) (leadByte_lt (toNat_val_lt d)) ?_
  rcases leadByte_lt_or hcode with hlt | ⟨heq, hcount, hbits⟩
  · exact .inl hlt
  · rw [hcount]
    exact .inr ⟨heq, continuation_append_lt hcode s t hbits⟩

/-- A smaller text has the smaller bytes. -/
theorem bytes_lt_bytes {a b : String} (h : a < b) : LineIndex.bytes a < LineIndex.bytes b := by
  rw [LineIndex.bytes_eq, LineIndex.bytes_eq]
  rw [String.lt_iff] at h
  generalize a.toList = cs at h ⊢
  generalize b.toList = ds at h ⊢
  induction h with
  | nil =>
      rw [List.flatMap_nil, List.flatMap_cons, utf8EncodeChar_eq]
      exact .nil
  | cons _ ih =>
      rw [List.flatMap_cons, List.flatMap_cons]
      exact List.append_left_lt ih
  | rel hchar =>
      rw [List.flatMap_cons, List.flatMap_cons]
      exact utf8EncodeChar_append_lt hchar _ _

end Biparse.Utf8
