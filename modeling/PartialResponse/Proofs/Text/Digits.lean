import Mathlib.Algebra.Group.Nat.Defs
import Mathlib.Data.List.Basic
import PartialResponse.Text.Digits

/-!
# PartialResponse.Proofs.Text.Digits — digits and the numbers that they write

The decimal text of a number is a row of digits, the first of which is no zero unless
it is the only one, and the number reads back from it. Likewise hexadecimal digits
write the end of a number.
-/

namespace PartialResponse.Text

/-! ## Decimal digits -/

theorem isDigit_iff {x : Char} : x.isDigit = true ↔ 48 ≤ x.toNat ∧ x.toNat ≤ 57 := by
  simp only [Char.isDigit, Bool.and_eq_true, decide_eq_true_eq]
  exact Iff.rfl

/-- A digit is none of the characters that mean something else. -/
theorem ne_of_isDigit {x y : Char} (h : x.isDigit = true) (hy : y.isDigit = false) : x ≠ y := by
  rintro rfl
  simp [h] at hy

theorem isDigit_of_mem_digitText {n : Nat} {x : Char} (h : x ∈ digitText n) : x.isDigit = true :=
  Nat.isDigit_of_mem_toDigits (by decide) (by decide) h

theorem exists_digitText (n : Nat) :
    ∃ d more, digitText n = d :: more ∧ d.isDigit = true ∧ ∀ x ∈ more, x.isDigit = true := by
  obtain ⟨d, more, hdigits⟩ := List.exists_cons_of_ne_nil (@Nat.toDigits_ne_nil n 10)
  have hall : ∀ x ∈ d :: more, x.isDigit = true := by
    rw [← hdigits]
    exact fun x hx => isDigit_of_mem_digitText hx
  exact ⟨d, more, hdigits, List.forall_mem_cons.1 hall⟩

theorem head_digitText {n : Nat} (h : 0 < n) : (digitText n).head? ≠ some '0' := by
  induction n using Nat.strongRecOn with
  | _ n ih =>
    rw [digitText, Nat.toDigits_eq_if (by decide)]
    split
    · next hlt =>
      have hall : ∀ n < 10, 0 < n → Nat.digitChar n ≠ '0' := by decide
      simpa using hall n hlt h
    · have hfront := ih (n / 10) (by omega) (by omega)
      obtain ⟨d, more, hdigits, -, -⟩ := exists_digitText (n / 10)
      rw [hdigits] at hfront
      rw [digitText] at hdigits
      simpa [hdigits] using hfront

/-- A number reads back from its digits. -/
@[simp]
theorem digitValue_digitText (n : Nat) : digitValue (digitText n) = n := by
  rw [digitValue, value_eq_foldl, List.foldl_map]
  have hread := @Nat.ofDigitChars_ten_toDigits n
  rw [Nat.ofDigitChars_eq_foldl] at hread
  simpa [digitText, Nat.add_comm] using hread

/-! ## Hexadecimal digits -/

theorem hexValue?_of_isDigit {x : Char} (h : x.isDigit = true) : hexValue? x = some (x.toNat - 48) := by
  have hn := isDigit_iff.1 h
  simp [hexValue?, hn]

theorem hexValue?_upperHexDigit {n : Nat} (h : n < 16) : hexValue? (upperHexDigit n) = some n := by
  have hall : ∀ n < 16, hexValue? (upperHexDigit n) = some n := by decide
  exact hall n h

theorem hexValue?_hexDigit {n : Nat} (h : n < 16) : hexValue? (hexDigit n) = some n := by
  have hall : ∀ n < 16, hexValue? (hexDigit n) = some n := by decide
  exact hall n h

@[simp]
theorem length_hexText (digit : Nat → Char) (width n : Nat) : (hexText digit width n).length = width := by
  induction width generalizing n with
  | zero => rfl
  | succ width ih => simp [hexText, ih]

/-- The end of a number reads back from its hexadecimal digits, in either case. -/
theorem hexNumber?_hexText {digit : Nat → Char} (hdigit : ∀ {n}, n < 16 → hexValue? (digit n) = some n)
    (width n : Nat) : hexNumber? (hexText digit width n) = some (n % 16 ^ width) := by
  induction width generalizing n with
  | zero => simp [hexText, hexNumber?, Nat.mod_one]
  | succ width ih =>
    have hlow : hexValue? (digit (n % 16)) = some (n % 16) := hdigit (Nat.mod_lt n (by decide))
    have hfront := ih (n / 16)
    rw [hexNumber?] at hfront
    rw [hexText, hexNumber?, List.foldlM_append, hfront]
    have hvalue : 16 * (n / 16 % 16 ^ width) + n % 16 = n % 16 ^ (width + 1) := by
      rw [Nat.pow_succ, Nat.mul_comm (16 ^ width) 16, Nat.mod_mul, Nat.add_comm]
    simp [hlow, hvalue]

/-- The numbers of characters leave out half of the code units. -/
theorem toNat_valid (c : Char) : c.toNat < 0xD800 ∨ (0xE000 ≤ c.toNat ∧ c.toNat < 0x110000) := by
  have h : c.toNat.isValidChar := c.valid
  simp only [Nat.isValidChar] at h
  omega

end PartialResponse.Text
