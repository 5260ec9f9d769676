import Mathlib.Data.List.TakeWhile
import PartialResponse.Json.Printer
import PartialResponse.Json.Token
import PartialResponse.Proofs.Text.Digits
import PartialResponse.Proofs.Tree.Contents

/-!
# PartialResponse.Proofs.Json.Numbers — numbers read back

A number is read up to the first character that cannot belong to it. So a number that
reads back from its own text also does in front of any text that does not go on with
it. Integers always read back; whether a floating-point number does depends on the
digits that are found for it.
-/

namespace PartialResponse.Json

variable {t rest : List Char}

/-! ## What may stand behind a number -/

/-- The characters that a number in front of them goes on with. -/
def continuesNumber (c : Char) : Bool :=
  c.isDigit || c == '.' || c == 'e' || c == 'E'

/-- Whether a text does not go on with a number in front of it. -/
def Apart (t : List Char) : Prop :=
  ∀ c ∈ t.head?, continuesNumber c = false

theorem apart_nil : Apart [] := by
  simp [Apart]

theorem apart_cons {c : Char} (h : continuesNumber c = false) : Apart (c :: t) := by
  simpa [Apart] using h

/-- A text in front does not matter if it is empty, and decides if it is not. -/
theorem Apart.append (ht : Apart t) (hrest : Apart rest) : Apart (t ++ rest) := by
  cases t with
  | nil => exact hrest
  | cons c t => exact ht

/-- What stands behind a number is no digit, no point and no mark of an exponent. -/
theorem Apart.head (h : Apart rest) {c : Char} {more : List Char} (hrest : rest = c :: more) :
    c.isDigit = false ∧ c ≠ '.' ∧ c ≠ 'e' ∧ c ≠ 'E' := by
  have hc : continuesNumber c = false := h c (by simp [hrest])
  simpa [continuesNumber, and_assoc] using hc

/-- Digits end where the rest starts at the latest. -/
theorem takeWhile_append_apart (hrest : Apart rest) :
    (t ++ rest).takeWhile Char.isDigit = t.takeWhile Char.isDigit := by
  induction t with
  | nil =>
    cases rest with
    | nil => rfl
    | cons c more => simp [(hrest.head rfl).1]
  | cons c t ih => simp only [List.cons_append, List.takeWhile_cons, ih]

theorem dropWhile_append_apart (hrest : Apart rest) :
    (t ++ rest).dropWhile Char.isDigit = t.dropWhile Char.isDigit ++ rest := by
  induction t with
  | nil =>
    cases rest with
    | nil => rfl
    | cons c more => simp [(hrest.head rfl).1]
  | cons c t ih =>
    simp only [List.cons_append, List.dropWhile_cons, ih]
    split <;> rfl

/-! ## Numbers in front of a text -/

/-- A fraction, or that there is none. -/
theorem readFraction_append {digits more : List Char} (h : readFraction t = some (digits, more))
    (hrest : Apart rest) : readFraction (t ++ rest) = some (digits, more ++ rest) := by
  unfold readFraction at h
  split at h
  · rw [List.cons_append, readFraction, takeWhile_append_apart hrest, dropWhile_append_apart hrest]
    dsimp only at h ⊢
    split at h
    · cases h
    · next hdigits =>
      cases h
      rw [if_neg hdigits]
  · next hpoint =>
    cases h
    unfold readFraction
    split
    · next u hpoint' =>
      -- the point is neither in the text nor in front of the rest
      cases t with
      | nil => exact absurd rfl (hrest.head hpoint').2.1
      | cons c t => exact absurd (congrArg (· :: t) (List.cons.inj hpoint').1) (hpoint t)
    · rfl

/-- The digits of an exponent. -/
theorem readExponentDigits_append {negative : Bool} {e : Int} {more : List Char}
    (h : readExponentDigits negative t = some (e, more)) (hrest : Apart rest) :
    readExponentDigits negative (t ++ rest) = some (e, more ++ rest) := by
  unfold readExponentDigits at h ⊢
  rw [takeWhile_append_apart hrest, dropWhile_append_apart hrest]
  dsimp only at h ⊢
  split at h
  · cases h
  · next hdigits =>
    cases h
    rw [if_neg hdigits]

/-- An exponent with its sign. -/
theorem readSignedExponent_append {e : Int} {more : List Char}
    (h : readSignedExponent t = some (e, more)) (hrest : Apart rest) :
    readSignedExponent (t ++ rest) = some (e, more ++ rest) := by
  unfold readSignedExponent at h
  split at h
  · exact readExponentDigits_append h hrest
  · exact readExponentDigits_append h hrest
  · next hplus hminus =>
    cases t with
    | nil => simp [readExponentDigits] at h
    | cons c t =>
      have hplus : c ≠ '+' := fun hc => hplus t (by rw [hc])
      have hminus : c ≠ '-' := fun hc => hminus t (by rw [hc])
      have hread := readExponentDigits_append h hrest
      simpa [readSignedExponent, hplus, hminus] using hread

/-- An exponent, or that there is none. -/
theorem readExponent_append {e : Option Int} {more : List Char} (h : readExponent t = some (e, more))
    (hrest : Apart rest) : readExponent (t ++ rest) = some (e, more ++ rest) := by
  unfold readExponent at h
  split at h
  case h_3 =>
    next hlower hupper =>
    cases h
    unfold readExponent
    -- nothing was read of an exponent, and what follows must not look like one
    cases t with
    | nil =>
      split
      · next hmark => exact absurd rfl (hrest.head hmark).2.2.1
      · next hmark => exact absurd rfl (hrest.head hmark).2.2.2
      · rfl
    | cons c t =>
      have hlower : c ≠ 'e' := fun hc => hlower t (by rw [hc])
      have hupper : c ≠ 'E' := fun hc => hupper t (by rw [hc])
      simp [hlower, hupper]
  all_goals
    obtain ⟨⟨e', more'⟩, hread, heq⟩ := Option.map_eq_some_iff.1 h
    cases heq
    simp [readExponent, readSignedExponent_append hread hrest]

/-- A number without its sign. -/
theorem readMagnitude_append {negative : Bool} {n : Number} {more : List Char}
    (h : readMagnitude negative t = some (n, more)) (hrest : Apart rest) :
    readMagnitude negative (t ++ rest) = some (n, more ++ rest) := by
  unfold readMagnitude at h ⊢
  rw [takeWhile_append_apart hrest, dropWhile_append_apart hrest]
  dsimp only at h ⊢
  split at h
  · cases h
  · next hwhole =>
    obtain ⟨⟨fraction, u⟩, hfraction, h⟩ := Option.bind_eq_some_iff.1 h
    obtain ⟨⟨exponent, v⟩, hexponent, h⟩ := Option.bind_eq_some_iff.1 h
    obtain ⟨number, hnumber, h⟩ := Option.bind_eq_some_iff.1 h
    cases h
    -- digits, fraction and exponent, each in front of what has been read behind it
    rw [if_neg hwhole, readFraction_append hfraction hrest, Option.bind_eq_bind, Option.bind_some,
      readExponent_append hexponent hrest, Option.bind_eq_bind, Option.bind_some, hnumber]
    rfl

/-- A number starts with a digit or with a minus sign. -/
theorem exists_head_of_readNumber {n : Number} (h : readNumber t = some (n, rest)) :
    ∃ c more, t = c :: more ∧ (c.isDigit = true ∨ c = '-') := by
  cases t with
  | nil => simp [readNumber, readMagnitude] at h
  | cons c more =>
    refine ⟨c, more, rfl, ?_⟩
    by_contra hc
    rw [not_or, Bool.not_eq_true] at hc
    simp [readNumber, hc.2, readMagnitude, hc.1] at h

/-- A number that is read up to the end of a text is also read in front of a text that does not go on
with it. -/
theorem readNumber_append {n : Number} {more : List Char} (h : readNumber t = some (n, more))
    (hrest : Apart rest) : readNumber (t ++ rest) = some (n, more ++ rest) := by
  obtain ⟨c, t, rfl, -⟩ := exists_head_of_readNumber h
  unfold readNumber at h
  split at h
  · next heq =>
    cases heq
    exact readMagnitude_append h hrest
  · next hsign =>
    have hsign : c ≠ '-' := fun hc => hsign t (by rw [hc])
    have hread := readMagnitude_append h hrest
    simpa [readNumber, hsign] using hread

/-! ## Integers -/

/-- Further digits make a number no smaller. -/
theorem le_foldl_digits (digits : List Char) (n : Nat) :
    n ≤ digits.foldl (fun n c => n * 10 + (c.toNat - 48)) n := by
  induction digits generalizing n with
  | nil => exact Nat.le_refl n
  | cons c rest ih =>
    have hrest := ih (n * 10 + (c.toNat - 48))
    rw [List.foldl_cons]
    omega

/-- Digits are taken as long as their number has room, so all of them are if the last has. -/
theorem takeDigits_of_le {digits : List Char} {n : Nat}
    (h : digits.foldl (fun n c => n * 10 + (c.toNat - 48)) n ≤ maxSignificand) :
    takeDigits n digits = (digits.foldl (fun n c => n * 10 + (c.toNat - 48)) n, []) := by
  induction digits generalizing n with
  | nil => rfl
  | cons c rest ih =>
    rw [List.foldl_cons] at h ⊢
    have hroom : ¬maxSignificand < n * 10 + (c.toNat - 48) := by
      have hle := le_foldl_digits rest (n * 10 + (c.toNat - 48))
      omega
    rw [takeDigits, if_neg hroom, ih h]

/-- The digits of a number that fits into 64 bits all have room. -/
theorem takeDigits_digitText {n : Nat} (h : n ≤ maxSignificand) :
    takeDigits 0 (Text.digitText n) = (n, []) := by
  have hvalue : (Text.digitText n).foldl (fun n c => n * 10 + (c.toNat - 48)) 0 = n := by
    have hread := Text.digitValue_digitText n
    rw [Text.digitValue, Text.value_eq_foldl, List.foldl_map] at hread
    simpa [Nat.mul_comm, Nat.add_comm] using hread
  rw [takeDigits_of_le (by rwa [hvalue]), hvalue]

/-- The digits of a number have neither a fraction nor an exponent. -/
theorem readMagnitude_digitText (negative : Bool) {n : Nat} (h : n ≤ maxSignificand) :
    readMagnitude negative (Text.digitText n) = (integral negative n).map (·, []) := by
  have hall : ∀ x ∈ Text.digitText n, x.isDigit = true := fun x hx => Text.isDigit_of_mem_digitText hx
  have hwhole : (Text.digitText n).takeWhile Char.isDigit = Text.digitText n :=
    List.takeWhile_eq_self_iff.2 hall
  have hnothing : (Text.digitText n).dropWhile Char.isDigit = [] := List.dropWhile_eq_nil_iff.2 hall
  -- digits there are, and none is a superfluous zero in front
  have hform : ¬(Text.digitText n = [] ∨ (Text.digitText n).head? = some '0' ∧ Text.digitText n ≠ ['0']) := by
    rintro (hempty | ⟨hzero, hmore⟩)
    · simp [Text.digitText] at hempty
    · rcases Nat.eq_zero_or_pos n with rfl | hn
      · exact hmore rfl
      · exact Text.head_digitText hn hzero
  unfold readMagnitude
  rw [hwhole, hnothing, if_neg hform]
  simp only [readFraction, readExponent, assemble, takeDigits_digitText h]
  cases integral negative n <;> rfl

/-- Every integer that a number can be reads back. -/
theorem readNumber_integerText (value : Int)
    (hfits : -0x8000000000000000 ≤ value ∧ value < 0x10000000000000000) :
    readNumber (Number.integerText value) = some (.integer value hfits, []) := by
  have hnumber : Number.ofInt? value = some (.integer value hfits) := dif_pos hfits
  have hroom : value.natAbs ≤ maxSignificand := by
    rw [maxSignificand]
    omega
  unfold Number.integerText
  split
  · next hneg =>
    have hvalue : -(value.natAbs : Int) = value := by omega
    -- minus zero would be read as a float
    have hpos : value.natAbs ≠ 0 := by omega
    rw [readNumber, readMagnitude_digitText true hroom, integral]
    simp only [if_true, if_neg hpos, hvalue, hnumber, Option.map_some]
  · next hpos =>
    have hvalue : (value.natAbs : Int) = value := by omega
    obtain ⟨d, more, hdigits, hd, -⟩ := Text.exists_digitText value.natAbs
    have hsign : d ≠ '-' := Text.ne_of_isDigit hd (by decide)
    have hread : readNumber (Text.digitText value.natAbs) =
        readMagnitude false (Text.digitText value.natAbs) := by
      rw [hdigits]
      simp [readNumber, hsign]
    rw [hread, readMagnitude_digitText false hroom, integral]
    simp [hvalue, hnumber]

/-! ## All numbers -/

/-- Whether a floating-point number reads back from its text. -/
def ReadsBack (x : Binary64) : Prop :=
  readNumber (x.text floatNotation) = some (.float x, [])

instance (x : Binary64) : Decidable (ReadsBack x) :=
  inferInstanceAs (Decidable (_ = _))

/-- Whether all floating-point numbers in a value read back from their texts. -/
def FloatsReadBack (value : Tree) : Prop :=
  ∀ x, Number.float x ∈ value.numbers → ReadsBack x

/-- A number reads back in front of what does not go on with it. -/
theorem readNumber_text {n : Number} (h : ∀ x, n = .float x → ReadsBack x) (hrest : Apart rest) :
    readNumber (n.text floatNotation ++ rest) = some (n, rest) := by
  have hread : readNumber (n.text floatNotation) = some (n, []) := by
    cases n with
    | integer value hfits => exact readNumber_integerText value hfits
    | float x => exact h x rfl
  exact readNumber_append hread hrest

end PartialResponse.Json
