/-!
# PartialResponse.Text.Utf8 — characters as bytes

A character is encoded in one to four bytes. Bytes are decoded one by one; a
sequence of bytes that breaks off before its character is complete counts as one
malformed part, and so does a byte that starts no character.
-/

namespace PartialResponse.Text.Utf8

/-- The byte with the given value, which is below 256. -/
def byte (n : Nat) : UInt8 := UInt8.ofNat n

/-- The bytes of a character. -/
def encodeChar (c : Char) : List UInt8 :=
  let n := c.toNat
  let more (n : Nat) : UInt8 := byte (0x80 + n % 0x40)
  if n < 0x80 then [byte n]
  else if n < 0x800 then [byte (0xC0 + n / 0x40), more n]
  else if n < 0x10000 then [byte (0xE0 + n / 0x1000), more (n / 0x40), more n]
  else [byte (0xF0 + n / 0x40000), more (n / 0x1000), more (n / 0x40), more n]

/-- The bytes of a text. -/
def encode (text : List Char) : List UInt8 :=
  text.flatMap encodeChar

/-! ## Decoding -/

/-- A character that is not complete. -/
structure Pending where
  /-- How many bytes are still to come. -/
  remaining : Nat
  /-- What the bytes read so far come to. -/
  value : Nat
  /-- The least and the greatest value of the next byte. -/
  low : Nat
  high : Nat

/-- What a byte comes to where a character starts: a character or a malformed part, or the start of
a character. -/
def start (n : Nat) : List (Option Char) × Option Pending :=
  if n < 0x80 then ([some (Char.ofNat n)], none)
  else if n < 0xC2 then ([none], none)
  else if n < 0xE0 then ([], some ⟨1, n - 0xC0, 0x80, 0xBF⟩)
  else if n = 0xE0 then ([], some ⟨2, 0, 0xA0, 0xBF⟩)
  else if n = 0xED then ([], some ⟨2, 0xD, 0x80, 0x9F⟩)
  else if n < 0xF0 then ([], some ⟨2, n - 0xE0, 0x80, 0xBF⟩)
  else if n = 0xF0 then ([], some ⟨3, 0, 0x90, 0xBF⟩)
  else if n < 0xF4 then ([], some ⟨3, n - 0xF0, 0x80, 0xBF⟩)
  else if n = 0xF4 then ([], some ⟨3, 4, 0x80, 0x8F⟩)
  else ([none], none)

/-- What one more byte comes to. A byte that does not go on with the character may start another
one. -/
def step (pending : Option Pending) (n : Nat) : List (Option Char) × Option Pending :=
  match pending with
  | none => start n
  | some p =>
    if p.low ≤ n ∧ n ≤ p.high then
      let value := 0x40 * p.value + n % 0x40
      if p.remaining = 1 then ([some (Char.ofNat value)], none)
      else ([], some ⟨p.remaining - 1, value, 0x80, 0xBF⟩)
    else
      let (parts, pending) := start n
      (none :: parts, pending)

/-- The characters of bytes, and the malformed parts between them, behind what is pending. -/
def parts (pending : Option Pending) : List UInt8 → List (Option Char)
  | [] => if pending.isSome then [none] else []
  | b :: rest =>
    let (first, pending) := step pending b.toNat
    first ++ parts pending rest

/-- The text that bytes encode; there is none if a part of them is malformed. -/
def decode? (bytes : List UInt8) : Option (List Char) :=
  (parts none bytes).mapM id

/-- The text of bytes, where the replacement character stands for each malformed part. -/
def decodeLossy (bytes : List UInt8) : List Char :=
  (parts none bytes).map (·.getD '\ufffd')

end PartialResponse.Text.Utf8
