import PartialResponse.Toml.Scalar
import PartialResponse.Toml.Text

/-!
# PartialResponse.Toml.Reader — reading configuration text

The text is a sequence of lines. A line is blank, assigns a value to a key, or is
a header; a comment may end it. Arrays and strings between three quotes go over
several lines.
-/

namespace PartialResponse.Toml

/-! ## Values -/

/-- The text behind space, line feeds and comments. The flag tells whether it starts in a
comment. -/
def skipGap : Bool → List Char → List Char
  | _, [] => []
  | true, c :: rest =>
    if c = '\n' then skipGap false rest else if isPlain c then skipGap true rest else c :: rest
  | false, c :: rest =>
    if isSpace c || c == '\n' then skipGap false rest
    else if c = '#' then skipGap true rest
    else c :: rest

/-- Reads a value, or an item of an array. -/
abbrev ValueReader := List Char → Option (Value × List Char)

/-- Reads the items of an array up to its closing bracket. Every item takes a character at least, so
that the length of the text bounds their number. -/
def readItems (readItem : ValueReader) : Nat → List Char → Option (List Value × List Char)
  | 0, _ => none
  | bound + 1, text =>
    match skipGap false text with
    | ']' :: rest => some ([], rest)
    | text => do
      let (item, rest) ← readItem text
      match skipGap false rest with
      | ',' :: rest =>
        let (items, rest) ← readItems readItem bound rest
        some (item :: items, rest)
      | ']' :: rest => some ([item], rest)
      | _ => none

/-- Reads an assignment: the tables that its key goes through, the name in the last of them, and the
value. -/
def readAssignment (readValue : ValueReader) (text : List Char) :
    Option (List String × String × Value × List Char) := do
  let (path, name, rest) ← readKey text
  match rest with
  | '=' :: rest =>
    let (value, rest) ← readValue (skipSpace rest)
    some (path, name, value, rest)
  | _ => none

/-- Reads the assignments of a table between braces, behind those before them. There is one at
least. -/
def readBraces (readValue : ValueReader) : Nat → Entries → List Char → Option (Entries × List Char)
  | 0, _, _ => none
  | bound + 1, entries, text => do
    let (path, name, value, rest) ← readAssignment readValue text
    let entries ← entries.assign? path name value
    match skipSpace rest with
    | ',' :: rest => readBraces readValue bound entries rest
    | '}' :: rest => some (entries, rest)
    | _ => none

/-- Reads a value in which arrays and tables are nested to the given depth at most. -/
def readValue : Nat → ValueReader
  | _, '"' :: rest => (readString ('"' :: rest)).map fun (s, rest) => (.string s, rest)
  | _, '\'' :: rest => (readString ('\'' :: rest)).map fun (s, rest) => (.string s, rest)
  | depth, '[' :: rest =>
    match depth with
    | 0 => none
    | depth + 1 =>
      (readItems (readValue depth) (rest.length + 1) rest).map fun (items, rest) =>
        (.array items, rest)
  | depth, '{' :: rest =>
    match depth with
    | 0 => none
    | depth + 1 =>
      match skipSpace rest with
      | '}' :: rest => some (.table .braces [], rest)
      | text =>
        (readBraces (readValue depth) (text.length + 1) [] text).map fun (entries, rest) =>
          (.table .braces entries, rest)
  | _, text => readScalar text

/-- How deep arrays and tables are nested at most. -/
def maxDepth : Nat := 79

/-! ## Lines -/

/-- What has been read so far. -/
structure Draft where
  /-- The table without a header, which holds all others. -/
  entries : Entries
  /-- The header that the next assignments stand under. -/
  header : List String

/-- Reads a header between brackets. -/
def readHeader (text : List Char) : Option (List String × String × List Char) := do
  let (path, name, rest) ← readKey text
  match rest with
  | ']' :: rest => some (path, name, rest)
  | _ => none

/-- Reads what stands on a line. -/
def readStatement (draft : Draft) (text : List Char) : Option (Draft × List Char) :=
  match text with
  | '\n' :: _ => some (draft, text)
  | '#' :: _ => some (draft, text)
  | '[' :: '[' :: rest => do
    let (path, name, rest) ← readHeader rest
    match rest with
    | ']' :: rest => some (⟨← draft.entries.openNextTable? path name, path ++ [name]⟩, rest)
    | _ => none
  | '[' :: rest => do
    let (path, name, rest) ← readHeader rest
    some (⟨← draft.entries.openTable? path name, path ++ [name]⟩, rest)
  | text => do
    let (path, name, value, rest) ← readAssignment (readValue maxDepth) text
    some (⟨← draft.entries.assignUnder? draft.header path name value, draft.header⟩, rest)

/-- The text behind a comment. -/
def skipComment : List Char → List Char
  | '#' :: rest => rest.dropWhile isPlain
  | text => text

/-- The text behind the end of a line, which may have a comment before it. -/
def skipLineEnd? (text : List Char) : Option (List Char) :=
  match skipComment (skipSpace text) with
  | [] => some []
  | '\n' :: rest => some rest
  | _ => none

/-- Reads lines. Every line takes a character at least, so that the length of the text bounds their
number. -/
def readLines : Nat → Draft → List Char → Option Entries
  | 0, _, _ => none
  | bound + 1, draft, text =>
    match skipSpace text with
    | [] => some draft.entries
    | text => do
      let (draft, rest) ← readStatement draft text
      readLines bound draft (← skipLineEnd? rest)

/-- The text with a line feed for every carriage return and line feed. -/
def joinLineEnds : List Char → List Char
  | [] => []
  | '\r' :: '\n' :: rest => '\n' :: joinLineEnds rest
  | c :: rest => c :: joinLineEnds rest

/-- The text without a mark for the order of bytes in front. -/
def withoutMark : List Char → List Char
  | '\ufeff' :: rest => rest
  | text => text

/-- The entries that a text describes. -/
def read? (text : List Char) : Option Entries :=
  let lines := joinLineEnds (withoutMark text)
  readLines (lines.length + 1) ⟨[], []⟩ lines

end PartialResponse.Toml
