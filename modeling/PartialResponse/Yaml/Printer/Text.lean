import PartialResponse.Yaml.Cursor
import PartialResponse.Yaml.Schema

/-!
# PartialResponse.Yaml.Printer.Text — writing strings

A string is written plainly where that is possible. It needs quotes where it
would read back as something else than a string, or not as a single scalar; a
string of several lines becomes a literal block; and what neither quotes nor a
block can hold is written with escapes between double quotes.
-/

namespace PartialResponse.Yaml

/-- The ways to write a string. -/
inductive TextStyle where
  | plain
  | single
  | double
  | literal
deriving DecidableEq, Repr

/-- Whether a character can be written as it is. -/
def isPrintable (c : Char) : Bool :=
  let n := c.toNat
  n == 0xA || (0x20 ≤ n && n ≤ 0x7E) || (0xA0 ≤ n && n != 0xFEFF && n ≤ 0xFFFD) || 0x10000 ≤ n

/-- Whether a character is a space, a tab, a line break or no character at all. -/
def isBlankOrBreak (c : Char) : Bool :=
  isBlank c || isBreak c || c == '\x00'

/-! ## What a string allows -/

/-- Whether two neighbouring characters satisfy two tests. -/
def hasNeighbours (first second : Char → Bool) : List Char → Bool
  | a :: b :: rest => (first a && second b) || hasNeighbours first second (b :: rest)
  | _ => false

/-- Whether a text holds more than one line. -/
def isMultiline (text : List Char) : Bool :=
  text.any isBreak

/-- Whether a text starts or ends with a space or a line break. -/
def isPadded (text : List Char) : Bool :=
  let edge (c : Char) : Bool := c == ' ' || isBreak c
  text.head?.any edge || text.getLast?.any edge

/-- Whether a mark for a value or a comment is inside the text: a colon before white space, or a
number sign behind it. -/
def hasInnerMark : List Char → Bool
  | a :: b :: rest =>
    (a == ':' && isBlankOrBreak b) || (isBlankOrBreak a && b == '#') || hasInnerMark (b :: rest)
  | [c] => c == ':'
  | [] => false

/-- Whether the first character of a text makes it something else than a plain scalar. -/
def hasOuterMark (text : List Char) : Bool :=
  match text with
  | [] => false
  | c :: rest =>
    ['#', ',', '[', ']', '{', '}', '&', '*', '!', '|', '>', '\'', '"', '%', '@', '\x60'].contains c
      || (['?', ':', '-'].contains c && rest.head?.all isBlankOrBreak)
      || text.take 3 == ['-', '-', '-'] || text.take 3 == ['.', '.', '.']

/-- Whether quotes can hold a text without escapes. -/
def allowsSingle (text : List Char) : Bool :=
  text.all isPrintable && !hasNeighbours (· == ' ') isBreak text &&
    !hasNeighbours isBreak (· == ' ') text

/-- Whether a text can be written without quotes. -/
def allowsPlain (text : List Char) : Bool :=
  !text.isEmpty && allowsSingle text && !isMultiline text && !isPadded text &&
    !hasOuterMark text && !hasInnerMark text

/-- Whether a literal block can hold a text. -/
def allowsLiteral (text : List Char) : Bool :=
  !text.isEmpty && text.all isPrintable && !hasNeighbours (· == ' ') isBreak text &&
    text.getLast? != some ' '

/-- Whether a text without quotes reads back as a string. -/
def readsAsText (text : String) : Bool :=
  Schema.resolve text == .finite (.string text) && !Schema.hasLeadingZero text.toList

/-- How a string is written. -/
def styleOf (s : String) : TextStyle :=
  let text := s.toList
  if text.contains '\n' then (if allowsLiteral text then .literal else .double)
  else if readsAsText s && allowsPlain text then .plain
  else if allowsSingle text then .single
  else .double

/-! ## Writing -/

/-- A text whose lines are indented. `fresh` says whether it starts at the start of a line. -/
def writeLines (indent : Nat) (write : Char → List Char) : Bool → List Char → List Char
  | _, [] => []
  | fresh, c :: rest =>
    if isBreak c then c :: writeLines indent write true rest
    else (if fresh then List.replicate indent ' ' else []) ++ write c ++
      writeLines indent write false rest

/-- A text between single quotes, each of which is doubled inside. -/
def singleText (indent : Nat) (text : List Char) : List Char :=
  let edge := if text.getLast?.any isBreak then List.replicate indent ' ' else []
  '\'' :: writeLines indent (fun c => if c = '\'' then ['\'', '\''] else [c]) false text ++
    edge ++ ['\'']

/-- The letter that stands for a character behind a backslash. -/
def escapeLetter? : Char → Option Char
  | '\x00' => some '0'
  | '\x07' => some 'a'
  | '\x08' => some 'b'
  | '\t' => some 't'
  | '\n' => some 'n'
  | '\x0b' => some 'v'
  | '\x0c' => some 'f'
  | '\r' => some 'r'
  | '\x1b' => some 'e'
  | '"' => some '"'
  | '\\' => some '\\'
  | '\u0085' => some 'N'
  | '\u2028' => some 'L'
  | '\u2029' => some 'P'
  | _ => none

/-- A character between double quotes. -/
def writeEscaped (c : Char) : List Char :=
  match escapeLetter? c with
  | some letter => ['\\', letter]
  | none =>
    let n := c.toNat
    let code (mark : Char) (width : Nat) := '\\' :: mark :: Text.hexText Text.upperHexDigit width n
    if isPrintable c then [c]
    else if n ≤ 0xFF then code 'x' 2
    else if n ≤ 0xFFFF then code 'u' 4
    else code 'U' 8

/-- A text between double quotes. -/
def doubleText (text : List Char) : List Char :=
  '"' :: text.flatMap writeEscaped ++ ['"']

/-- What is said in front of a literal block about the line breaks at its end. -/
def chompingMark (text : List Char) : List Char :=
  match text.reverse with
  | [] => ['-']
  | [last] => if isBreak last then ['+'] else ['-']
  | last :: before :: _ =>
    if !isBreak last then ['-'] else if isBreak before then ['+'] else []

/-- A literal block. Its indentation is given in front if its first line does not show it. -/
def literalText (indent : Nat) (text : List Char) : List Char :=
  let width := if text.head?.any (fun c => c == ' ' || isBreak c) then ['2'] else []
  '|' :: width ++ chompingMark text ++ '\n' :: writeLines indent (fun c => [c]) true text

/-- A string, of which further lines are indented by `indent`. -/
def textOf (indent : Nat) (s : String) : List Char :=
  match styleOf s with
  | .plain => s.toList
  | .single => singleText indent s.toList
  | .double => doubleText s.toList
  | .literal => literalText indent s.toList

end PartialResponse.Yaml
