import PartialResponse.Toml.Text

/-!
# PartialResponse.Toml.Printer — writing configuration text

A string is written in the plainest way that it admits: between single quotes or
three quotes where that saves escapes. An array of several strings has each of
them on a line of its own.
-/

namespace PartialResponse.Toml

/-- The four ways to write a string. -/
inductive Spelling where
  | basic
  | literal
  | longBasic
  | longLiteral
deriving DecidableEq, Repr

/-- The length of the longest run of a character in a text, behind so many of them. -/
def longestRun (quote : Char) (run : Nat) : List Char → Nat
  | [] => run
  | c :: rest =>
    if c = quote then longestRun quote (run + 1) rest
    else max run (longestRun quote 0 rest)

/-- How a string is written. -/
def Spelling.of (text : List Char) : Spelling :=
  let plain := text.all fun c => isPlain c || c == '\n'
  let escape := text.contains '\\'
  let lines := text.contains '\n'
  if plain && !escape && !text.contains '"' && !lines then basic
  else if plain && !text.contains '\'' && !lines then literal
  else if plain && !escape && longestRun '"' 0 text ≤ 2 then longBasic
  else if plain && longestRun '\'' 0 text ≤ 2 then longLiteral
  else if lines then longBasic
  else basic

/-- The escape of a character that is neither a quote nor a line feed. -/
def escape (c : Char) : List Char :=
  if c = '\x08' then ['\\', 'b']
  else if c = '\t' then ['\\', 't']
  else if c = '\x0c' then ['\\', 'f']
  else if c = '\r' then ['\\', 'r']
  else if c = '\\' then ['\\', '\\']
  else if c.toNat < 0x20 || c.toNat = 0x7F then
    '\\' :: 'u' :: Text.hexText Text.upperHexDigit 4 c.toNat
  else [c]

/-- The characters of a string on one line between double quotes. -/
def writeBasic (text : List Char) : List Char :=
  text.flatMap fun c =>
    if c = '"' then ['\\', '"'] else if c = '\n' then ['\\', 'n'] else escape c

/-- The characters of a string on several lines between double quotes, behind so many such quotes.
No three of them stand side by side. -/
def writeLongBasic (quotes : Nat) : List Char → List Char
  | [] => []
  | c :: rest =>
    if c = '"' then
      if quotes = 2 then '\\' :: '"' :: writeLongBasic 0 rest
      else '"' :: writeLongBasic (quotes + 1) rest
    else if c = '\n' then '\n' :: writeLongBasic 0 rest
    else escape c ++ writeLongBasic 0 rest

/-- A line feed in front of a string that has one itself. -/
def leadingLine (text : List Char) : List Char :=
  if text.contains '\n' then ['\n'] else []

/-- The text of a string, written in the given way. -/
def writeAs (text : List Char) : Spelling → List Char
  | .basic => '"' :: writeBasic text ++ ['"']
  | .literal => '\'' :: text ++ ['\'']
  | .longBasic =>
    '"' :: '"' :: '"' :: leadingLine text ++ writeLongBasic 0 text ++ ['"', '"', '"']
  | .longLiteral => '\'' :: '\'' :: '\'' :: leadingLine text ++ text ++ ['\'', '\'', '\'']

/-- The text of a string. -/
def writeString (text : List Char) : List Char :=
  writeAs text (Spelling.of text)

/-- The text of an array of strings. -/
def writeStrings : List (List Char) → List Char
  | [] => ['[', ']']
  | [text] => '[' :: writeString text ++ [']']
  | texts =>
    '[' :: '\n' :: texts.flatMap (fun text =>
      ' ' :: ' ' :: ' ' :: ' ' :: writeString text ++ [',', '\n']) ++ [']']

/-- The text of a truth value. -/
def writeBool (b : Bool) : List Char :=
  if b then ['t', 'r', 'u', 'e'] else ['f', 'a', 'l', 's', 'e']

/-- A line that assigns a value to a key. -/
def writeEntry (key : String) (value : List Char) : List Char :=
  key.toList ++ ' ' :: '=' :: ' ' :: value ++ ['\n']

end PartialResponse.Toml
