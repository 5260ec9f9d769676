import PartialResponse.Tree.Basic
import PartialResponse.Text.Digits

/-!
# PartialResponse.Json.Printer — writing JSON values

JSON text is written on one line without spaces, or with every item and property
on a line of its own, indented by its depth.
-/

namespace PartialResponse.Json

/-- Floating-point numbers are written with the fewest digits that read back, positionally from
`10 ^ (-5)` to below `10 ^ 16`, otherwise with a signed exponent. -/
def floatNotation : Binary64.Notation := ⟨-5, 16, true⟩

/-- A character inside a string. Quotes, backslashes and control characters are escaped. -/
def escape (c : Char) : List Char :=
  if c = '"' then ['\\', '"']
  else if c = '\\' then ['\\', '\\']
  else if c = '\x08' then ['\\', 'b']
  else if c = '\x0c' then ['\\', 'f']
  else if c = '\n' then ['\\', 'n']
  else if c = '\r' then ['\\', 'r']
  else if c = '\t' then ['\\', 't']
  else if c.toNat < 0x20 then '\\' :: 'u' :: Text.hexText Text.hexDigit 4 c.toNat
  else [c]

/-- A string in quotes. -/
def quoted (s : String) : List Char :=
  '"' :: s.toList.flatMap escape ++ ['"']

/-- A scalar as it is written. -/
def scalarText : Scalar → List Char
  | .null => ['n', 'u', 'l', 'l']
  | .bool true => ['t', 'r', 'u', 'e']
  | .bool false => ['f', 'a', 'l', 's', 'e']
  | .number n => n.text floatNotation
  | .string s => quoted s

/-- How many spaces the indentation of a level can have at most. The spaces are put into a text of
their own, and no text is longer. -/
def maxIndent : Nat := 0x7FFFFFFFFFFFFFFF

/-- How a value is laid out: on one line, or on many with an indentation per level. -/
inductive Layout where
  | compact
  | pretty (indent : Nat) (hfits : indent ≤ maxIndent)
deriving DecidableEq, Repr

namespace Layout

/-- What stands in front of an item, a property or a closing bracket at the given level. -/
def line : Layout → Nat → List Char
  | compact, _ => []
  | pretty indent _, level => '\n' :: List.replicate (indent * level) ' '

/-- What stands between a property name and its value. -/
def colon : Layout → List Char
  | compact => [':']
  | pretty .. => [':', ' ']

end Layout

mutual

/-- The text of a value at the given level. -/
def write (layout : Layout) (level : Nat) : Tree → List Char
  | .scalar value => scalarText value
  | .array [] => ['[', ']']
  | .array (item :: rest) =>
    '[' :: layout.line (level + 1) ++ write layout (level + 1) item ++
      writeItems layout (level + 1) rest ++ layout.line level ++ [']']
  | .object [] => ['{', '}']
  | .object ((name, value) :: rest) =>
    '{' :: layout.line (level + 1) ++ quoted name ++ layout.colon ++
      write layout (level + 1) value ++ writeProperties layout (level + 1) rest ++
      layout.line level ++ ['}']

/-- The items behind the first one. -/
def writeItems (layout : Layout) (level : Nat) : List Tree → List Char
  | [] => []
  | item :: rest =>
    ',' :: layout.line level ++ write layout level item ++ writeItems layout level rest

/-- The properties behind the first one. -/
def writeProperties (layout : Layout) (level : Nat) : Properties Tree → List Char
  | [] => []
  | (name, value) :: rest =>
    ',' :: layout.line level ++ quoted name ++ layout.colon ++ write layout level value ++
      writeProperties layout level rest

end

/-- The text of a value. -/
def text (layout : Layout) (value : Tree) : String :=
  String.ofList (write layout 0 value)

/-- The text of a value on one line. -/
def compactText (value : Tree) : String :=
  text .compact value

end PartialResponse.Json
