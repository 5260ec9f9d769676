/-!
# PartialResponse.Yaml.Cursor — places in a text

A cursor is the text still to be read together with its place. Lines end in a
line feed, a carriage return, both together, or one of three further characters.

Some characters are forbidden. A text is taken in by blocks, and those characters
are noticed when the block that they are in is.
-/

namespace PartialResponse.Yaml

/-- Spaces and tabs. -/
def isBlank (c : Char) : Bool :=
  c == ' ' || c == '\t'

/-- The characters that end a line. -/
def isBreak (c : Char) : Bool :=
  c == '\n' || c == '\r' || c == '\u0085' || c == '\u2028' || c == '\u2029'

/-- The characters of names: letters, digits, underscores and hyphens. -/
def isNameChar (c : Char) : Bool :=
  c.isAlphanum || c == '_' || c == '-'

/-- Whether a character may stand in a text. -/
def isAllowed (c : Char) : Bool :=
  let n := c.toNat
  n == 0x9 || n == 0xA || n == 0xD || (0x20 ≤ n && n ≤ 0x7E) || n == 0x85 ||
    (0xA0 ≤ n && n ≤ 0xFFFD) || 0x10000 ≤ n

/-- How many bytes a block has at most. -/
def blockSize : Nat := 16384

/-- How many bytes stand before the first block with a forbidden character. `start` is that number
for the current block, and `index` for the next character. A character that does not fit into a
block is the first of another one. -/
def faultyBlock? (start index : Nat) : List Char → Option Nat
  | [] => none
  | c :: rest =>
    let start := if start + blockSize < index + c.utf8Size then index else start
    if isAllowed c then faultyBlock? start (index + c.utf8Size) rest else some start

/-- How many bytes characters take. -/
def byteCount (text : List Char) : Nat :=
  text.foldr (fun c count => c.utf8Size + count) 0

/-- The text still to be read, and its place: how many bytes stand before it in all, how many lines,
and how many characters on its own line. -/
structure Cursor where
  rest : List Char
  /-- How many characters are still to be read. -/
  left : Nat
  left_eq : left = rest.length
  index : Nat
  line : Nat
  column : Nat

namespace Cursor

/-- The start of a text. -/
def start (text : List Char) : Cursor :=
  ⟨text, text.length, rfl, 0, 0, 0⟩

/-- Whether the text is read to its end. -/
def atEnd (c : Cursor) : Bool :=
  c.rest.isEmpty

/-- Whether the next character is the given one. -/
def at? (c : Cursor) (x : Char) : Bool :=
  c.rest.head? == some x

/-- Whether the next character satisfies a test. -/
def nextIs (c : Cursor) (test : Char → Bool) : Bool :=
  c.rest.head?.any test

/-- Whether a blank, a line break or the end of the text comes after `n` more characters. -/
def blankAfter (c : Cursor) (n : Nat) : Bool :=
  match c.rest[n]? with
  | none => true
  | some x => isBlank x || isBreak x

/-- Whether a line break or the end of the text comes next. -/
def atLineEnd (c : Cursor) : Bool :=
  c.atEnd || c.nextIs isBreak

/-- Whether the text goes on with the given characters. -/
def startsWith (c : Cursor) (text : List Char) : Bool :=
  text.isPrefixOf c.rest

/-- Takes `n` characters away. The line and the column stay. -/
def take (c : Cursor) (n : Nat) : Cursor :=
  { c with
    rest := c.rest.drop n
    left := c.left - n
    left_eq := by rw [c.left_eq, List.length_drop]
    index := c.index + byteCount (c.rest.take n) }

/-- Moves past `n` characters of the line. -/
def skip (c : Cursor) (n : Nat) : Cursor :=
  { c.take n with column := c.column + min n c.left }

/-- Moves past all characters that satisfy a test, which no line break does. -/
def skipWhile (c : Cursor) (test : Char → Bool) : Cursor :=
  c.skip (c.rest.takeWhile test).length

/-- Moves past a comment, if there is one. -/
def skipComment (c : Cursor) : Cursor :=
  if c.at? '#' then c.skipWhile (!isBreak ·) else c

/-- Moves past a line break, if there is one. -/
def skipBreak (c : Cursor) : Cursor :=
  match c.rest with
  | '\r' :: '\n' :: _ => { c.take 2 with line := c.line + 1, column := 0 }
  | x :: _ => if isBreak x then { c.take 1 with line := c.line + 1, column := 0 } else c
  | [] => c

/-- What the line break that comes next counts as inside a scalar. -/
def breakText (c : Cursor) : List Char :=
  match c.rest with
  | '\u2028' :: _ => ['\u2028']
  | '\u2029' :: _ => ['\u2029']
  | x :: _ => if isBreak x then ['\n'] else []
  | [] => []

/-- Whether a line starts here with a document marker made of the given character. -/
def atMarker (c : Cursor) (x : Char) : Bool :=
  c.column == 0 && c.startsWith [x, x, x] && c.blankAfter 3

/-- Whether a line starts here with the marker of the start or the end of a document. -/
def atDocumentMarker (c : Cursor) : Bool :=
  c.atMarker '-' || c.atMarker '.'

end Cursor

end PartialResponse.Yaml
