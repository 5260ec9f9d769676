import PartialResponse.Text.Digits

/-!
# PartialResponse.Toml.Text — strings and keys

A string stands between single or double quotes, one or three at each end. Between
double quotes a backslash starts an escape. Three quotes let a string go over
several lines.
-/

namespace PartialResponse.Toml

/-- Spaces and tabs, which may stand between the parts of a line. -/
def isSpace (c : Char) : Bool :=
  c == ' ' || c == '\t'

/-- The text behind leading spaces. -/
def skipSpace (text : List Char) : List Char :=
  text.dropWhile isSpace

/-- The characters that stand for themselves wherever they may occur: all but control characters,
among which the tab is an exception. -/
def isPlain (c : Char) : Bool :=
  c == '\t' || (0x20 ≤ c.toNat && c.toNat != 0x7F)

/-! ## Escapes -/

/-- The character with the code that hexadecimal digits write. -/
def character? (digits : List Char) : Option Char :=
  match Text.hexNumber? digits with
  | some n => if h : n.isValidChar then some (Char.ofNatAux n h) else none
  | none => none

/-- The character that an escape stands for, the text starting behind the backslash. -/
def readEscape : List Char → Option (Char × List Char)
  | 'b' :: rest => some ('\x08', rest)
  | 't' :: rest => some ('\t', rest)
  | 'n' :: rest => some ('\n', rest)
  | 'f' :: rest => some ('\x0c', rest)
  | 'r' :: rest => some ('\r', rest)
  | '"' :: rest => some ('"', rest)
  | '\\' :: rest => some ('\\', rest)
  | 'u' :: rest =>
    if rest.length < 4 then none else (character? (rest.take 4)).map (·, rest.drop 4)
  | 'U' :: rest =>
    if rest.length < 8 then none else (character? (rest.take 8)).map (·, rest.drop 8)
  | _ => none

/-- An escape has a character at least. -/
theorem length_readEscape {text rest : List Char} {c : Char}
    (h : readEscape text = some (c, rest)) : rest.length < text.length := by
  unfold readEscape at h
  split at h
  case h_8 | h_9 =>
    split at h
    · simp at h
    · obtain ⟨_, _, he⟩ := Option.map_eq_some_iff.1 h
      simp only [Prod.mk.injEq] at he
      simp only [← he.2, List.length_drop, List.length_cons]
      omega
  case h_10 => simp at h
  all_goals
    simp only [Option.some.injEq, Prod.mk.injEq] at h
    simp [← h.2]

/-- The text behind leading spaces and line feeds. -/
def skipBlank (text : List Char) : List Char :=
  text.dropWhile fun c => isSpace c || c == '\n'

/-- The text behind a line end that a backslash hides, and behind the space in front of the next
character. The text starts behind the backslash. -/
def hiddenLineEnd? (text : List Char) : Option (List Char) :=
  match skipSpace text with
  | '\n' :: rest => some (skipBlank rest)
  | _ => none

/-- Skipping does not add to the text. -/
theorem length_dropWhile_le (p : Char → Bool) (text : List Char) :
    (text.dropWhile p).length ≤ text.length :=
  (List.dropWhile_suffix p).length_le

/-- A line end that is hidden is taken off the text. -/
theorem length_hiddenLineEnd {text rest : List Char} (h : hiddenLineEnd? text = some rest) :
    rest.length < text.length := by
  unfold hiddenLineEnd? at h
  split at h
  · rename_i line he
    simp only [Option.some.injEq] at h
    have hl₁ := length_dropWhile_le isSpace text
    have hl₂ := length_dropWhile_le (fun c => isSpace c || c == '\n') line
    rw [← skipSpace, he, List.length_cons] at hl₁
    rw [← h, skipBlank]
    omega
  · simp at h

/-! ## Strings

Each reader starts behind the opening quotes, and gives the string and the text
behind its closing quotes. -/

/-- Reads a string with escapes on one line. -/
def readBasic (text : List Char) : Option (List Char × List Char) :=
  match text with
  | [] => none
  | '"' :: rest => some ([], rest)
  | '\\' :: rest =>
    match _he : readEscape rest with
    | some (c, after) => (readBasic after).map fun (cs, behind) => (c :: cs, behind)
    | none => none
  | c :: rest =>
    if isPlain c then (readBasic rest).map fun (cs, behind) => (c :: cs, behind) else none
termination_by text.length
decreasing_by
  · have := length_readEscape _he
    simp only [List.length_cons]
    omega
  · simp

/-- Reads a string without escapes on one line. -/
def readLiteral : List Char → Option (List Char × List Char)
  | [] => none
  | c :: rest =>
    if c = '\'' then some ([], rest)
    else if isPlain c then (readLiteral rest).map fun (cs, behind) => (c :: cs, behind)
    else none

/-- The end of a string between three quotes, from behind these: up to two quotes more belong to the
string. -/
def closing (quote : Char) (rest : List Char) : List Char × List Char :=
  let more := rest.take 2 |>.takeWhile (· == quote)
  (more, rest.drop more.length)

/-- Reads a string with escapes on several lines. -/
def readLongBasic (text : List Char) : Option (List Char × List Char) :=
  match text with
  | [] => none
  | '"' :: '"' :: '"' :: rest => some (closing '"' rest)
  | '\\' :: rest =>
    -- a backslash at the end of a line is no escape
    match _hl : hiddenLineEnd? rest with
    | some after => readLongBasic after
    | none =>
      match _he : readEscape rest with
      | some (c, after) => (readLongBasic after).map fun (cs, behind) => (c :: cs, behind)
      | none => none
  | c :: rest =>
    if isPlain c || c == '\n' then (readLongBasic rest).map fun (cs, behind) => (c :: cs, behind)
    else none
termination_by text.length
decreasing_by
  · have := length_hiddenLineEnd _hl
    simp only [List.length_cons]
    omega
  · have := length_readEscape _he
    simp only [List.length_cons]
    omega
  · simp

/-- Reads a string without escapes on several lines. -/
def readLongLiteral : List Char → Option (List Char × List Char)
  | [] => none
  | '\'' :: '\'' :: '\'' :: rest => some (closing '\'' rest)
  | c :: rest =>
    if isPlain c || c == '\n' then (readLongLiteral rest).map fun (cs, behind) => (c :: cs, behind)
    else none

/-- The text behind a line feed, if it starts with one. -/
def skipLineFeed : List Char → List Char
  | '\n' :: rest => rest
  | text => text

/-- Reads a string. A line feed right behind three quotes does not belong to it. -/
def readString : List Char → Option (List Char × List Char)
  -- three quotes come first, since they would also be an empty string and another quote
  | '"' :: '"' :: '"' :: rest => readLongBasic (skipLineFeed rest)
  | '"' :: rest => readBasic rest
  | '\'' :: '\'' :: '\'' :: rest => readLongLiteral (skipLineFeed rest)
  | '\'' :: rest => readLiteral rest
  | _ => none

/-! ## Keys -/

/-- The characters of keys without quotes. -/
def isKeyChar (c : Char) : Bool :=
  c.isAlphanum || c == '-' || c == '_'

/-- Reads one part of a key. -/
def readKeyPart : List Char → Option (String × List Char)
  | '"' :: rest => (readBasic rest).map fun (cs, rest) => (.ofList cs, rest)
  | '\'' :: rest => (readLiteral rest).map fun (cs, rest) => (.ofList cs, rest)
  | text =>
    let name := text.takeWhile isKeyChar
    if name.isEmpty then none else some (.ofList name, text.drop name.length)

/-- Reads the parts of a key, of which there are so many at most. Points stand between them. -/
def readKeyParts : Nat → List Char → Option (List String × List Char)
  | 0, _ => none
  | bound + 1, text => do
    let (part, rest) ← readKeyPart (skipSpace text)
    match skipSpace rest with
    | '.' :: rest =>
      let (parts, rest) ← readKeyParts bound rest
      some (part :: parts, rest)
    | rest => some ([part], rest)

/-- How many parts a key has at most. -/
def maxKeyParts : Nat := 79

/-- Reads a key: the tables it goes through, and its name in the last of them. -/
def readKey (text : List Char) : Option (List String × String × List Char) := do
  let (parts, rest) ← readKeyParts maxKeyParts text
  let name ← parts.getLast?
  some (parts.dropLast, name, rest)

end PartialResponse.Toml
