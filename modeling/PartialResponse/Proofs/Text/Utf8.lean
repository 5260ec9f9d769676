import Mathlib.Tactic.SplitIfs
import PartialResponse.Proofs.Text.Digits
import PartialResponse.Text.Utf8

/-!
# PartialResponse.Proofs.Text.Utf8 — encoded texts decode

The bytes of a text decode to the text. This goes character by character: the first
byte tells how many are to come and what the second may be, and those that come are
the ones that `encodeChar` puts there.
-/

namespace PartialResponse.Text.Utf8

variable {c : Char} {t : List Char} {bytes : List UInt8} {k : Nat}

/-- Numbers below 256 are kept by a byte. -/
theorem toNat_byte (hk : k < 256) : (byte k).toNat = k := by
  rw [byte, UInt8.toNat_ofNat']
  exact Nat.mod_eq_of_lt hk

/-! ## Bytes that go on with a character -/

/-- The bytes that go on with a character, as a rule. -/
def IsTail (k : Nat) : Prop :=
  0x80 ≤ k ∧ k ≤ 0xBF

/-- Six bits of a character make a byte that goes on with it. -/
theorem isTail_encoded (n : Nat) : IsTail (0x80 + n % 0x40) :=
  ⟨by omega, by omega⟩

/-- The last byte of a character. -/
theorem parts_one {value low high : Nat} (hk : low ≤ k ∧ k ≤ high) (hbyte : k < 256) :
    parts (some ⟨1, value, low, high⟩) (byte k :: bytes) =
      some (Char.ofNat (0x40 * value + k % 0x40)) :: parts none bytes := by
  rw [parts, toNat_byte hbyte, step]
  dsimp only
  rw [if_pos hk]
  rfl

/-- The last but one; only the first of them has bounds of its own. -/
theorem parts_two {value low high l : Nat} (hk : low ≤ k ∧ k ≤ high) (hbyte : k < 256) (hl : IsTail l) :
    parts (some ⟨2, value, low, high⟩) (byte k :: byte l :: bytes) =
      some (Char.ofNat (0x40 * (0x40 * value + k % 0x40) + l % 0x40)) :: parts none bytes := by
  have hlast : l < 256 := Nat.lt_of_le_of_lt hl.2 (by decide)
  rw [parts, toNat_byte hbyte, step]
  dsimp only
  rw [if_pos hk]
  exact parts_one hl hlast

/-- All the bytes behind the first of four. -/
theorem parts_three {value low high l m : Nat} (hk : low ≤ k ∧ k ≤ high) (hbyte : k < 256) (hl : IsTail l)
    (hm : IsTail m) : parts (some ⟨3, value, low, high⟩) (byte k :: byte l :: byte m :: bytes) =
      some (Char.ofNat (0x40 * (0x40 * (0x40 * value + k % 0x40) + l % 0x40) + m % 0x40)) ::
        parts none bytes := by
  have hlast : l < 256 := Nat.lt_of_le_of_lt hl.2 (by decide)
  rw [parts, toNat_byte hbyte, step]
  dsimp only
  rw [if_pos hk]
  exact parts_two hl hlast hm

/-! ## First bytes of a character -/

/-- Between characters, a byte starts one. -/
theorem parts_start (hk : k < 256) :
    parts none (byte k :: bytes) = (start k).1 ++ parts (start k).2 bytes := by
  rw [parts, toNat_byte hk, step]

/-- The first of two bytes. `0xC0` and `0xC1` would say what a single byte does. -/
theorem start_two (hlow : 0xC2 ≤ k) (hhigh : k < 0xE0) :
    start k = ([], some ⟨1, k - 0xC0, 0x80, 0xBF⟩) := by
  rw [start, if_neg (by omega), if_neg (by omega), if_pos hhigh]

/-- The first of three bytes. What it says alone would do in two bytes, or is no character, is kept out
by the second one. -/
theorem start_three (hlow : 0xE0 ≤ k) (hhigh : k < 0xF0) :
    start k = ([], some ⟨2, k - 0xE0, if k = 0xE0 then 0xA0 else 0x80, if k = 0xED then 0x9F else 0xBF⟩) := by
  rw [start, if_neg (by omega), if_neg (by omega), if_neg (by omega)]
  split_ifs <;> first | omega | simp_all

/-- The first of four bytes, likewise. -/
theorem start_four (hlow : 0xF0 ≤ k) (hhigh : k ≤ 0xF4) :
    start k = ([], some ⟨3, k - 0xF0, if k = 0xF0 then 0x90 else 0x80, if k = 0xF4 then 0x8F else 0xBF⟩) := by
  rw [start, if_neg (by omega), if_neg (by omega), if_neg (by omega), if_neg (by omega), if_neg (by omega),
    if_neg (by omega)]
  split_ifs <;> first | omega | simp_all

/-! ## Characters -/

/-- A character is read back. The cases are those of its length in bytes. -/
theorem parts_encodeChar (c : Char) (bytes : List UInt8) :
    parts none (encodeChar c ++ bytes) = some c :: parts none bytes := by
  -- surrogates are no characters, and there is none above `0x10FFFF`
  have hvalid := toNat_valid c
  have hread : ∀ n, n = c.toNat → some (Char.ofNat n) :: parts none bytes = some c :: parts none bytes := by
    rintro n rfl
    rw [Char.ofNat_toNat]
  unfold encodeChar
  dsimp only
  split_ifs with hone htwo hthree
  · rw [List.singleton_append, parts_start (by omega), start, if_pos hone]
    exact hread c.toNat rfl
  · rw [List.cons_append, List.singleton_append, parts_start (by omega), start_two (by omega) (by omega),
      List.nil_append, parts_one (isTail_encoded c.toNat) (by omega)]
    exact hread _ (by omega)
  · -- a character that needs three bytes and is no surrogate has a second one within the bounds
    have hsecond : (if 0xE0 + c.toNat / 0x1000 = 0xE0 then 0xA0 else 0x80) ≤ 0x80 + c.toNat / 0x40 % 0x40 ∧
        0x80 + c.toNat / 0x40 % 0x40 ≤ if 0xE0 + c.toNat / 0x1000 = 0xED then 0x9F else 0xBF := by
      constructor <;> split_ifs <;> omega
    rw [List.cons_append, List.cons_append, List.singleton_append, parts_start (by omega),
      start_three (by omega) (by omega), List.nil_append,
      parts_two hsecond (by omega) (isTail_encoded c.toNat)]
    exact hread _ (by omega)
  · -- so has one that needs four and is not above the last character
    have hsecond : (if 0xF0 + c.toNat / 0x40000 = 0xF0 then 0x90 else 0x80) ≤ 0x80 + c.toNat / 0x1000 % 0x40 ∧
        0x80 + c.toNat / 0x1000 % 0x40 ≤ if 0xF0 + c.toNat / 0x40000 = 0xF4 then 0x8F else 0xBF := by
      constructor <;> split_ifs <;> omega
    rw [List.cons_append, List.cons_append, List.cons_append, List.singleton_append, parts_start (by omega),
      start_four (by omega) (by omega), List.nil_append,
      parts_three hsecond (by omega) (isTail_encoded (c.toNat / 0x40)) (isTail_encoded c.toNat)]
    exact hread _ (by omega)

/-! ## Texts -/

/-- The characters of a text are read back one by one. -/
@[simp]
theorem parts_encode (t : List Char) : parts none (encode t) = t.map some := by
  induction t with
  | nil => rfl
  | cons c t ih =>
    have hencode : encode (c :: t) = encodeChar c ++ encode t := rfl
    rw [hencode, parts_encodeChar, ih, List.map_cons]

/-- The bytes of a text decode to the text. -/
@[simp]
theorem decode?_encode (t : List Char) : decode? (encode t) = some t := by
  rw [decode?, parts_encode]
  induction t with
  | nil => rfl
  | cons c t ih => simp [List.mapM_cons, ih]

/-- Nothing has to be replaced in the bytes of a text. -/
@[simp]
theorem decodeLossy_encode (t : List Char) : decodeLossy (encode t) = t := by
  have hsame : (fun part : Option Char => part.getD '\ufffd') ∘ some = id := rfl
  rw [decodeLossy, parts_encode, List.map_map, hsame, List.map_id]

end PartialResponse.Text.Utf8
