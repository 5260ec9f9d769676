import PartialResponse.Json.Float
import PartialResponse.Tree.Basic
import PartialResponse.Text.Digits

/-!
# PartialResponse.Json.Token — the tokens of JSON text

JSON text is a sequence of brackets, colons, commas and scalars with white space
between them. `Token.ofText?` takes a text apart; it succeeds only if the whole
text is such a sequence.
-/

namespace PartialResponse.Json

/-- A token of JSON text. Property names are string scalars. -/
inductive Token where
  | openObject
  | closeObject
  | openArray
  | closeArray
  | colon
  | comma
  | scalar (value : Scalar)
deriving DecidableEq

/-- The characters that may stand between tokens. -/
def isSpace (c : Char) : Bool :=
  c == ' ' || c == '\t' || c == '\n' || c == '\r'

/-! ## Strings -/

/-- The code unit written by the four hexadecimal digits in front, and the text behind them. -/
def readCodeUnit : List Char → Option (Nat × List Char)
  | a :: b :: c :: d :: rest => (Text.hexNumber? [a, b, c, d]).map (·, rest)
  | _ => none

/-- The character written by the escape behind a `u`. A character beyond the first 65536 takes two
code units; half of such a pair stands for nothing. -/
def readUnicodeEscape (text : List Char) : Option (Char × List Char) := do
  let (first, rest) ← readCodeUnit text
  -- the second half of a pair cannot come first
  if 0xDC00 ≤ first ∧ first < 0xE000 then none
  else if 0xD800 ≤ first ∧ first < 0xDC00 then
    match rest with
    | '\\' :: 'u' :: rest =>
      let (second, rest) ← readCodeUnit rest
      if 0xDC00 ≤ second ∧ second < 0xE000 then
        some (Char.ofNat (0x10000 + (first - 0xD800) * 0x400 + (second - 0xDC00)), rest)
      else none
    | _ => none
  else some (Char.ofNat first, rest)

/-- The character written by an escape, the text starting behind the backslash. -/
def readEscape : List Char → Option (Char × List Char)
  | '"' :: rest => some ('"', rest)
  | '\\' :: rest => some ('\\', rest)
  | '/' :: rest => some ('/', rest)
  | 'b' :: rest => some ('\x08', rest)
  | 'f' :: rest => some ('\x0c', rest)
  | 'n' :: rest => some ('\n', rest)
  | 'r' :: rest => some ('\r', rest)
  | 't' :: rest => some ('\t', rest)
  | 'u' :: rest => readUnicodeEscape rest
  | _ => none

/-- The readers take something off the text, which the recursions over it need. -/
theorem length_readCodeUnit {text rest : List Char} {n : Nat}
    (h : readCodeUnit text = some (n, rest)) : rest.length < text.length := by
  unfold readCodeUnit at h
  split at h
  · obtain ⟨_, _, he⟩ := Option.map_eq_some_iff.1 h
    simp only [Prod.mk.injEq] at he
    simp only [← he.2, List.length_cons]
    omega
  · simp at h

/-- A surrogate pair takes two code units, any other escape one. -/
theorem length_readUnicodeEscape {text rest : List Char} {c : Char}
    (h : readUnicodeEscape text = some (c, rest)) : rest.length < text.length := by
  unfold readUnicodeEscape at h
  obtain ⟨⟨first, rest₁⟩, h₁, h⟩ := Option.bind_eq_some_iff.1 h
  have hl₁ := length_readCodeUnit h₁
  simp only at h
  split at h
  · -- a low surrogate does not stand alone
    simp at h
  split at h
  · split at h
    · rename_i rest₂
      obtain ⟨⟨second, rest₃⟩, h₂, h⟩ := Option.bind_eq_some_iff.1 h
      have hl₂ := length_readCodeUnit h₂
      simp only at h
      split at h
      · simp only [Option.some.injEq, Prod.mk.injEq] at h
        rw [← h.2]
        simp only [List.length_cons] at hl₁
        omega
      · simp at h
    · simp at h
  · simp only [Option.some.injEq, Prod.mk.injEq] at h
    rw [← h.2]
    exact hl₁

/-- An escape has a character at least. -/
theorem length_readEscape {text rest : List Char} {c : Char}
    (h : readEscape text = some (c, rest)) : rest.length < text.length := by
  unfold readEscape at h
  split at h
  -- `h_9` is the escape behind a `u`, and `h_10` what is no escape; all others take one character
  case h_9 => exact Nat.lt_succ_of_lt (length_readUnicodeEscape h)
  case h_10 => simp at h
  all_goals
    simp only [Option.some.injEq, Prod.mk.injEq] at h
    simp [← h.2]

/-- The characters of a string up to its closing quote, and the text behind that. The text starts
behind the opening quote. Control characters have to be escaped. -/
def readString (text : List Char) : Option (List Char × List Char) :=
  match text with
  | [] => none
  | '"' :: rest => some ([], rest)
  | '\\' :: rest =>
    match _he : readEscape rest with
    | some (c, rest') => (readString rest').map fun (cs, after) => (c :: cs, after)
    | none => none
  | c :: rest =>
    if c.toNat < 0x20 then none
    else (readString rest).map fun (cs, after) => (c :: cs, after)
termination_by text.length
decreasing_by
  · have := length_readEscape _he
    simp only [List.length_cons]
    omega
  · simp

/-- A string has its closing quote at least. -/
theorem length_readString {text cs rest : List Char} (h : readString text = some (cs, rest)) :
    rest.length < text.length := by
  fun_induction readString text generalizing cs with
  | case1 => simp at h
  | case2 =>
    simp only [Option.some.injEq, Prod.mk.injEq] at h
    simp [← h.2]
  | case3 rest' c after he ih =>
    obtain ⟨⟨_, _⟩, hr, heq⟩ := Option.map_eq_some_iff.1 h
    simp only [Prod.mk.injEq] at heq
    have hl₁ := ih (heq.2 ▸ hr)
    have hl₂ := length_readEscape he
    simp only [List.length_cons]
    omega
  | case4 => simp at h
  | case5 => simp at h
  | case6 _ _ _ _ _ ih =>
    obtain ⟨⟨_, _⟩, hr, heq⟩ := Option.map_eq_some_iff.1 h
    simp only [Prod.mk.injEq] at heq
    exact Nat.lt_succ_of_lt (ih (heq.2 ▸ hr))

/-! ## Numbers -/

/-- The digits behind a decimal point, if there is one. A point has to be followed by a digit. -/
def readFraction : List Char → Option (List Char × List Char)
  | '.' :: rest =>
    let digits := rest.takeWhile Char.isDigit
    if digits = [] then none else some (digits, rest.dropWhile Char.isDigit)
  | text => some ([], text)

/-- The digits of an exponent, of which there has to be one at least. -/
def readExponentDigits (negative : Bool) (text : List Char) : Option (Int × List Char) :=
  let digits := text.takeWhile Char.isDigit
  if digits = [] then none
  else
    let e : Int := Text.digitValue digits
    some (if negative then -e else e, text.dropWhile Char.isDigit)

/-- An exponent with or without a sign. -/
def readSignedExponent : List Char → Option (Int × List Char)
  | '+' :: rest => readExponentDigits false rest
  | '-' :: rest => readExponentDigits true rest
  | text => readExponentDigits false text

/-- The exponent of a number, if it has one. -/
def readExponent : List Char → Option (Option Int × List Char)
  | 'e' :: rest => (readSignedExponent rest).map fun (e, rest) => (some e, rest)
  | 'E' :: rest => (readSignedExponent rest).map fun (e, rest) => (some e, rest)
  | text => some (none, text)

/-- The number without fraction and exponent whose digits all have room. A negative one that does not
fit is a floating-point number, and so is zero with a minus sign. -/
def integral (negative : Bool) (value : Nat) : Option Number :=
  let exact := if negative then (if value = 0 then none else Number.ofInt? (-value))
    else Number.ofInt? value
  match exact with
  | some number => some number
  | none => (Binary64.ofRank? negative (Binary64.rankOfNat value)).map .float

/-- The number with the given parts. A number with a fraction or an exponent is a floating-point number,
and so is one with too many digits. -/
def assemble (negative : Bool) (whole fraction : List Char) (exponent : Option Int) :
    Option Number :=
  let (significand, unread) := takeDigits 0 whole
  if unread = [] ∧ fraction = [] ∧ exponent = none then integral negative significand
  else
    let (significand, unread') := takeDigits significand fraction
    -- digits that have no room move the point, and so do those of the fraction
    (ofParts? negative significand (unread.length + unread'.length - fraction.length)
      exponent).map .float

/-- The number behind the sign, and the text behind the number. -/
def readMagnitude (negative : Bool) (text : List Char) : Option (Number × List Char) := do
  let whole := text.takeWhile Char.isDigit
  -- no digit may follow a leading zero
  if whole = [] ∨ (whole.head? = some '0' ∧ whole ≠ ['0']) then none
  else
    let (fraction, rest) ← readFraction (text.dropWhile Char.isDigit)
    let (exponent, rest) ← readExponent rest
    let number ← assemble negative whole fraction exponent
    some (number, rest)

/-- The number in front, and the text behind it. -/
def readNumber : List Char → Option (Number × List Char)
  | '-' :: rest => readMagnitude true rest
  | text => readMagnitude false text

/-! ## Tokens -/

namespace Token

/-- The token in front, and the text behind it. -/
def read : List Char → Option (Token × List Char)
  | '{' :: rest => some (openObject, rest)
  | '}' :: rest => some (closeObject, rest)
  | '[' :: rest => some (openArray, rest)
  | ']' :: rest => some (closeArray, rest)
  | ':' :: rest => some (colon, rest)
  | ',' :: rest => some (comma, rest)
  | 'n' :: 'u' :: 'l' :: 'l' :: rest => some (scalar .null, rest)
  | 't' :: 'r' :: 'u' :: 'e' :: rest => some (scalar (.bool true), rest)
  | 'f' :: 'a' :: 'l' :: 's' :: 'e' :: rest => some (scalar (.bool false), rest)
  | '"' :: rest => (readString rest).map fun (cs, after) =>
      (scalar (.string (String.ofList cs)), after)
  | text => (readNumber text).map fun (n, rest) => (scalar (.number n), rest)

end Token

/-- There need not be a fraction, so the text may be left as it is. -/
theorem length_readFraction {text digits rest : List Char}
    (h : readFraction text = some (digits, rest)) : rest.length ≤ text.length := by
  unfold readFraction at h
  split at h
  · simp only at h
    split at h
    · simp at h
    · simp only [Option.some.injEq, Prod.mk.injEq] at h
      rw [← h.2]
      exact Nat.le_succ_of_le (List.dropWhile_suffix _).length_le
  · simp only [Option.some.injEq, Prod.mk.injEq] at h
    simp [← h.2]

theorem length_readExponentDigits {negative : Bool} {text rest : List Char} {e : Int}
    (h : readExponentDigits negative text = some (e, rest)) : rest.length ≤ text.length := by
  unfold readExponentDigits at h
  simp only at h
  split at h
  · simp at h
  · simp only [Option.some.injEq, Prod.mk.injEq] at h
    rw [← h.2]
    exact (List.dropWhile_suffix _).length_le

theorem length_readSignedExponent {text rest : List Char} {e : Int}
    (h : readSignedExponent text = some (e, rest)) : rest.length ≤ text.length := by
  unfold readSignedExponent at h
  split at h
  case h_3 => exact length_readExponentDigits h
  all_goals exact Nat.le_succ_of_le (length_readExponentDigits h)

theorem length_readExponent {text rest : List Char} {e : Option Int}
    (h : readExponent text = some (e, rest)) : rest.length ≤ text.length := by
  unfold readExponent at h
  split at h
  case h_3 =>
    simp only [Option.some.injEq, Prod.mk.injEq] at h
    simp [← h.2]
  all_goals
    obtain ⟨⟨_, _⟩, hr, heq⟩ := Option.map_eq_some_iff.1 h
    simp only [Prod.mk.injEq] at heq
    exact Nat.le_succ_of_le (length_readSignedExponent (heq.2 ▸ hr))

theorem length_dropWhile_lt {p : Char → Bool} {text : List Char} (h : text.takeWhile p ≠ []) :
    (text.dropWhile p).length < text.length := by
  have hsum := congrArg List.length (List.takeWhile_append_dropWhile (p := p) (l := text))
  rw [List.length_append] at hsum
  have := List.length_pos_iff.2 h
  omega

/-- A number has a digit at least. -/
theorem length_readMagnitude {negative : Bool} {text rest : List Char} {n : Number}
    (h : readMagnitude negative text = some (n, rest)) : rest.length < text.length := by
  unfold readMagnitude at h
  simp only at h
  split at h
  · simp at h
  · rename_i hw
    obtain ⟨⟨fraction, rest₁⟩, h₁, h⟩ := Option.bind_eq_some_iff.1 h
    obtain ⟨⟨exponent, rest₂⟩, h₂, h⟩ := Option.bind_eq_some_iff.1 h
    obtain ⟨number, _, h⟩ := Option.bind_eq_some_iff.1 h
    simp only [Option.some.injEq, Prod.mk.injEq] at h
    have hl₁ := length_readFraction h₁
    have hl₂ := length_readExponent h₂
    have hl₀ := length_dropWhile_lt fun he => hw (Or.inl he)
    simp only at hl₁ hl₂
    rw [← h.2]
    omega

theorem length_readNumber {text rest : List Char} {n : Number}
    (h : readNumber text = some (n, rest)) : rest.length < text.length := by
  unfold readNumber at h
  split at h
  · exact Nat.lt_succ_of_lt (length_readMagnitude h)
  · exact length_readMagnitude h

namespace Token

/-- A token has a character at least. -/
theorem length_read {text rest : List Char} {t : Token} (h : read text = some (t, rest)) :
    rest.length < text.length := by
  unfold read at h
  split at h
  -- `h_10` is a string and `h_11` a number; every other token has a fixed length
  case h_10 =>
    obtain ⟨⟨_, _⟩, hr, heq⟩ := Option.map_eq_some_iff.1 h
    simp only [Prod.mk.injEq] at heq
    exact Nat.lt_succ_of_lt (length_readString (heq.2 ▸ hr))
  case h_11 =>
    obtain ⟨⟨_, _⟩, hr, heq⟩ := Option.map_eq_some_iff.1 h
    simp only [Prod.mk.injEq] at heq
    exact length_readNumber (heq.2 ▸ hr)
  all_goals
    simp only [Option.some.injEq, Prod.mk.injEq] at h
    simp only [← h.2, List.length_cons]
    omega

/-- The tokens of a text, or nothing if it is no sequence of tokens. -/
def ofText? (text : List Char) : Option (List Token) :=
  let start := text.dropWhile isSpace
  if start = [] then some []
  else
    match _hr : read start with
    | some (token, rest) => (ofText? rest).map (token :: ·)
    | none => none
termination_by text.length
decreasing_by exact Nat.lt_of_lt_of_le (length_read _hr) (List.dropWhile_suffix _).length_le

end Token

end PartialResponse.Json
