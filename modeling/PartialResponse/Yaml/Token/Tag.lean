import PartialResponse.Text.Digits
import PartialResponse.Text.Utf8
import PartialResponse.Yaml.Cursor
import PartialResponse.Yaml.Fault
import PartialResponse.Yaml.Token.Basic

/-!
# PartialResponse.Yaml.Token.Tag — reading tags, anchors and directives

Tags are written with a handle, which a directive of the document expands, and a
suffix, or in full between angle brackets. In both the bytes of a character can
be written as percent signs and hexadecimal digits. They need not make up a
character; but a byte that is zero ends the text, whatever is written behind it.
-/

namespace PartialResponse.Yaml

/-- The characters that a tag may hold, apart from those with a meaning inside brackets. -/
def isTagChar (c : Char) : Bool :=
  isNameChar c || [';', '/', '?', ':', '@', '&', '=', '+', '$', '.', '%', '!', '~', '*', '\'',
    '(', ')'].contains c

/-- How many bytes the character takes whose first byte is given. -/
def byteCount? (first : Nat) : Option Nat :=
  if first < 0x80 then some 1
  else if 0xC0 ≤ first ∧ first < 0xE0 then some 2
  else if 0xE0 ≤ first ∧ first < 0xF0 then some 3
  else if 0xF0 ≤ first ∧ first < 0xF8 then some 4
  else none

/-- The byte written by a percent sign and two hexadecimal digits. -/
def readByte (c : Cursor) : Option Nat :=
  match c.rest with
  | '%' :: a :: b :: _ => Text.hexNumber? [a, b]
  | _ => none

/-- Reads the remaining bytes of a character. -/
def readBytes : Nat → Cursor → List UInt8 → Except Fault (List UInt8 × Cursor)
  | 0, c, bytes => .ok (bytes, c)
  | n + 1, c, bytes =>
    match readByte c with
    | some b =>
      if 0x80 ≤ b ∧ b < 0xC0 then readBytes n (c.skip 3) (bytes ++ [UInt8.ofNat b])
      else .error .badTag
    | none => .error .badTag

/-- Reads the bytes of a character. -/
def readTagEscape (c : Cursor) : Except Fault (List UInt8 × Cursor) := do
  match readByte c with
  | none => .error .badTag
  | some first =>
    match byteCount? first with
    | none => .error .badTag
    | some n => readBytes (n - 1) (c.skip 3) [UInt8.ofNat first]

/-- Reads the characters of a tag as bytes, of which the first argument bounds the number. Flow
indicators belong to it only where `full` says so. `done` is what has been read, backwards. -/
def readTagText (full : Bool) : Nat → Cursor → List UInt8 → Except Fault (List UInt8 × Cursor)
  | 0, c, done => .ok (done.reverse, c)
  | rounds + 1, c, done =>
    match c.rest with
    | [] => .ok (done.reverse, c)
    | '%' :: _ =>
      match readTagEscape c with
      | .ok (text, c) => readTagText full rounds c (text.reverse ++ done)
      | .error e => .error e
    | x :: _ =>
      if isTagChar x || (full && [',', '[', ']'].contains x) then
        readTagText full rounds (c.skip 1) ((Text.Utf8.encodeChar x).reverse ++ done)
      else .ok (done.reverse, c)

/-- The bytes in front of the first one that is zero. -/
def beforeZero (bytes : List UInt8) : List UInt8 :=
  bytes.takeWhile (· != 0)

/-- Reads a tag handle: an exclamation mark, and perhaps a name and another one. -/
def readHandle (c : Cursor) : Except Fault (List Char × Cursor) :=
  if c.at? '!' then
    let name := (c.rest.drop 1).takeWhile isNameChar
    let c := c.skip (1 + name.length)
    if c.at? '!' then .ok ('!' :: name ++ ['!'], c.skip 1) else .ok ('!' :: name, c)
  else .error .badTag

/-- Whether a handle is complete: more than one exclamation mark, with one at its end. -/
def isHandle (text : List Char) : Bool :=
  2 ≤ text.length && text.getLast? == some '!'

/-- Reads a tag. `flow` says whether it stands inside brackets or braces. -/
def readTag (flow : Bool) (c : Cursor) : Except Fault (Token × Cursor) := do
  let bound := c.left
  let (handle, suffix, c) ←
    if c.startsWith ['!', '<'] then
      let (suffix, c) ← readTagText true bound (c.skip 2) []
      if suffix = [] ∨ !c.at? '>' then .error .badTag else .ok ([], beforeZero suffix, c.skip 1)
    else
      let (handle, c) ← readHandle c
      if isHandle handle then
        let (suffix, c) ← readTagText false bound c []
        if suffix = [] then .error .badTag else .ok (handle, beforeZero suffix, c)
      else
        let (suffix, c) ← readTagText false bound c (Text.Utf8.encode (handle.drop 1)).reverse
        if beforeZero suffix = [] then .ok ([], Text.Utf8.encode ['!'], c)
        else .ok (['!'], beforeZero suffix, c)
  if c.blankAfter 0 || (flow && c.at? ',') then .ok (.tag (String.ofList handle) suffix, c)
  else .error .badTag

/-- Reads the name of an anchor or an alias behind its indicator. -/
def readAnchorName (c : Cursor) : Except Fault (String × Cursor) :=
  let name := c.rest.takeWhile isNameChar
  let c := c.skip name.length
  if name ≠ [] ∧ (c.blankAfter 0 || c.nextIs ['?', ':', ',', ']', '}', '%', '@', '\x60'].contains)
  then .ok (String.ofList name, c)
  else .error .badAnchor

/-! ## Directives -/

/-- Reads a version number: at least one digit, and at most nine. -/
def readVersionNumber (c : Cursor) : Except Fault (Nat × Cursor) :=
  let digits := c.rest.takeWhile Char.isDigit
  if digits = [] ∨ 9 < digits.length then .error .badDirective
  else .ok (Text.digitValue digits, c.skip digits.length)

/-- Reads a directive behind its percent sign, with the rest of its line. -/
def readDirective (c : Cursor) : Except Fault (Token × Cursor) := do
  let name := c.rest.takeWhile isNameChar
  let c := c.skip name.length
  if !c.blankAfter 0 then .error .badDirective
  else
    let c := c.skipWhile isBlank
    let (token, c) ←
      if name = ['Y', 'A', 'M', 'L'] then
        let (major, c) ← readVersionNumber c
        if c.at? '.' then
          let (minor, c) ← readVersionNumber (c.skip 1)
          .ok (Token.versionDirective major minor, c)
        else .error .badDirective
      else if name = ['T', 'A', 'G'] then
        let (handle, c) ← readHandle c
        if (handle = ['!'] ∨ isHandle handle) ∧ c.nextIs isBlank then
          let c := c.skipWhile isBlank
          let (expansion, c) ← readTagText true c.left c []
          if expansion ≠ [] ∧ c.blankAfter 0 then
            .ok (Token.tagDirective (String.ofList handle) (beforeZero expansion), c)
          else .error .badDirective
        else .error .badDirective
      else .error .badDirective
    -- only a comment may follow on the line
    let c := (c.skipWhile isBlank).skipComment
    if c.atLineEnd then .ok (token, c.skipBreak) else .error .badDirective

end PartialResponse.Yaml
