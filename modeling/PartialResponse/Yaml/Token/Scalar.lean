import PartialResponse.Text.Digits
import PartialResponse.Yaml.Cursor
import PartialResponse.Yaml.Fault

/-!
# PartialResponse.Yaml.Token.Scalar — reading scalars

Scalars come quoted, plain, or as indented blocks. Inside quoted and plain
scalars a single line break counts as a space, and further ones as themselves.

The loops here take as their first argument a bound on the rounds still to come.
Every round moves the cursor on, so the length of the text always suffices.
-/

namespace PartialResponse.Yaml

/-! ## White space inside scalars -/

/-- White space that has been read and is not yet part of the scalar, backwards. -/
inductive Pending where
  /-- Spaces and tabs on one line. -/
  | blanks (text : List Char)
  /-- A first line break and those after it. -/
  | breaks (first more : List Char)

namespace Pending

/-- No white space. -/
def none : Pending := blanks []

/-- Whether there is any. -/
def isSome : Pending → Bool
  | blanks text => !text.isEmpty
  | breaks _ _ => true

/-- Whether a line break is among it. -/
def hasBreak : Pending → Bool
  | blanks _ => false
  | breaks _ _ => true

/-- What the white space comes to once the scalar goes on, backwards. -/
def folded : Pending → List Char
  | blanks text => text
  | breaks first more =>
    if first = ['\n'] then (if more = [] then [' '] else more) else more ++ first

/-- Takes in a blank. Blanks at the start of a line do not count. -/
def addBlank (c : Char) : Pending → Pending
  | blanks text => blanks (c :: text)
  | p => p

/-- Takes in a line break. Blanks at the end of a line do not count. -/
def addBreak (text : List Char) : Pending → Pending
  | blanks _ => breaks text.reverse []
  | breaks first more => breaks first (text.reverse ++ more)

end Pending

/-! ## Quoted scalars -/

/-- What an escape sequence writes: a character by its name, or by a number of so many digits. -/
inductive Escape where
  | character (c : Char)
  | code (digits : Nat)

/-- The escape sequence that a character behind a backslash starts. -/
def escapeOf? : Char → Option Escape
  | '0' => some (.character '\x00')
  | 'a' => some (.character '\x07')
  | 'b' => some (.character '\x08')
  | 't' => some (.character '\t')
  | '\t' => some (.character '\t')
  | 'n' => some (.character '\n')
  | 'v' => some (.character '\x0b')
  | 'f' => some (.character '\x0c')
  | 'r' => some (.character '\r')
  | 'e' => some (.character '\x1b')
  | ' ' => some (.character ' ')
  | '"' => some (.character '"')
  | '/' => some (.character '/')
  | '\\' => some (.character '\\')
  | 'N' => some (.character '\u0085')
  | '_' => some (.character '\u00a0')
  | 'L' => some (.character '\u2028')
  | 'P' => some (.character '\u2029')
  | 'x' => some (.code 2)
  | 'u' => some (.code 4)
  | 'U' => some (.code 8)
  | _ => none

/-- The character written by an escape sequence, and the cursor behind it. The cursor starts
behind the backslash. -/
def readEscape (c : Cursor) : Except Fault (Char × Cursor) :=
  match c.rest.head?.bind escapeOf? with
  | none => .error .badEscape
  | some (.character x) => .ok (x, c.skip 1)
  | some (.code n) =>
    let digits := (c.rest.drop 1).take n
    match Text.hexNumber? digits with
    | some code =>
      if digits.length = n ∧ (code < 0xD800 ∨ (0xE000 ≤ code ∧ code < 0x110000)) then
        .ok (Char.ofNat code, c.skip (n + 1))
      else .error .badEscape
    | none => .error .badEscape

/-- Reads a quoted scalar from behind its opening quote to behind its closing one. `done` is what
has been read of it, backwards. -/
def readQuoted (single : Bool) : Nat → Cursor → Pending → List Char →
    Except Fault (List Char × Cursor)
  | 0, _, _, _ => .error .unclosedQuote
  | rounds + 1, c, pending, done =>
    match c.rest with
    | [] => .error .unclosedQuote
    | x :: rest =>
      if isBlank x then readQuoted single rounds (c.skip 1) (pending.addBlank x) done
      else if isBreak x then
        readQuoted single rounds c.skipBreak (pending.addBreak c.breakText) done
      else if c.atDocumentMarker then .error .unclosedQuote
      else
        let done := pending.folded ++ done
        if x = (if single then '\'' else '"') then
          -- two single quotes stand for one
          if single && rest.head? == some '\'' then
            readQuoted single rounds (c.skip 2) .none ('\'' :: done)
          else .ok (done.reverse, c.skip 1)
        else if x = '\\' && !single then
          -- a backslash hides the line break behind it
          if (c.skip 1).nextIs isBreak then
            readQuoted single rounds (c.skip 1).skipBreak (.breaks [] []) done
          else
            match readEscape (c.skip 1) with
            | .ok (y, c) => readQuoted single rounds c .none (y :: done)
            | .error e => .error e
        else readQuoted single rounds (c.skip 1) .none (x :: done)

/-! ## Plain scalars -/

/-- The characters that end a plain scalar inside brackets and braces. -/
def isFlowIndicator (c : Char) : Bool :=
  c == ',' || c == '[' || c == ']' || c == '{' || c == '}'

/-- Reads a plain scalar that has to be indented by `indent`. The result also says whether the
scalar ends behind a line break. -/
def readPlain (flow : Bool) (indent : Int) : Nat → Cursor → Pending → List Char →
    Except Fault (List Char × Bool × Cursor)
  | 0, c, pending, done => .ok (done.reverse, pending.hasBreak, c)
  | rounds + 1, c, pending, done =>
    match c.rest with
    | [] => .ok (done.reverse, pending.hasBreak, c)
    | x :: rest =>
      if isBlank x then
        if pending.hasBreak && c.column < indent && x == '\t' then .error .badIndentation
        else readPlain flow indent rounds (c.skip 1) (pending.addBlank x) done
      else if isBreak x then
        readPlain flow indent rounds c.skipBreak (pending.addBreak c.breakText) done
      else if (pending.hasBreak && !flow && c.column < indent) || c.atDocumentMarker ||
          (x = '#' && pending.isSome) then
        .ok (done.reverse, pending.hasBreak, c)
      else if flow && x == ':' && rest.head?.any (fun y => isFlowIndicator y || y == '?') then
        .error .misplacedColon
      else if (x = ':' && (c.skip 1).blankAfter 0) || (flow && isFlowIndicator x) then
        .ok (done.reverse, pending.hasBreak, c)
      else readPlain flow indent rounds (c.skip 1) .none (x :: (pending.folded ++ done))

/-! ## Block scalars -/

/-- What becomes of the line breaks at the end of a block scalar. -/
inductive Chomping where
  | strip
  | clip
  | keep
deriving DecidableEq

/-- Reads the empty lines in front of a line of a block scalar, and the indentation of that line
up to `indent`, or all of it if the indentation is not known yet. The result holds the line breaks,
backwards, and the greatest indentation met. -/
def readBlockBreaks (indent : Option Nat) : Nat → Cursor → List Char → Nat →
    Except Fault (List Char × Nat × Cursor)
  | 0, c, breaks, widest => .ok (breaks, widest, c)
  | rounds + 1, c, breaks, widest =>
    let width := (c.rest.takeWhile (· == ' ')).length
    let c := c.skip (match indent with | some n => min width (n - c.column) | none => width)
    let widest := max widest c.column
    if (indent.all (c.column < ·)) && c.at? '\t' then .error .badIndentation
    else if c.nextIs isBreak then
      readBlockBreaks indent rounds c.skipBreak (c.breakText.reverse ++ breaks) widest
    else .ok (breaks, widest, c)

/-- Reads the lines of a block scalar that is indented by `indent`. `leading` is the line break of
the last line and `trailing` those of the empty lines after it; `blankBefore` says whether the last
line started with a blank. `done` is what has been read. All texts are backwards. -/
def readBlockLines (literal : Bool) (indent : Nat) : Nat → Cursor → List Char → List Char →
    Bool → List Char → Except Fault (List Char × List Char × List Char × Cursor)
  | 0, c, leading, trailing, _, done => .ok (done, leading, trailing, c)
  | rounds + 1, c, leading, trailing, blankBefore, done =>
    if c.column ≠ indent ∨ c.atEnd then .ok (done, leading, trailing, c)
    else do
      let blankHere := c.nextIs isBlank
      let joined :=
        if !literal && leading == ['\n'] && !blankBefore && !blankHere then
          if trailing = [] then [' '] else trailing
        else trailing ++ leading
      let line := c.rest.takeWhile (!isBreak ·)
      let afterLine := c.skip line.length
      let (trailing, _, c) ← readBlockBreaks (some indent) (rounds + 1) afterLine.skipBreak [] 0
      readBlockLines literal indent rounds c afterLine.breakText.reverse trailing blankHere
        (line.reverse ++ (joined ++ done))

/-- Reads the header of a block scalar behind its indicator: chomping and indentation, in either
order. -/
def readBlockHeader (c : Cursor) : Except Fault (Chomping × Option Nat × Cursor) :=
  let chomping? (c : Cursor) : Option Chomping :=
    if c.at? '+' then some .keep else if c.at? '-' then some .strip else none
  let width? (c : Cursor) : Option Nat :=
    (c.rest.head?.filter Char.isDigit).map fun x => x.toNat - 48
  match chomping? c with
  | some chomping =>
    let c := c.skip 1
    match width? c with
    | some 0 => .error .badIndentation
    | some n => .ok (chomping, some n, c.skip 1)
    | none => .ok (chomping, none, c)
  | none =>
    match width? c with
    | some 0 => .error .badIndentation
    | some n =>
      let c := c.skip 1
      match chomping? c with
      | some chomping => .ok (chomping, some n, c.skip 1)
      | none => .ok (.clip, some n, c)
    | none => .ok (.clip, none, c)

/-- Reads a block scalar behind its indicator, inside a collection that is indented by `outer`. -/
def readBlock (literal : Bool) (outer : Int) (c : Cursor) : Except Fault (List Char × Cursor) := do
  let (chomping, width, c) ← readBlockHeader c
  let c := (c.skipWhile isBlank).skipComment
  if !c.atLineEnd then .error .badScalarHeader
  else
    let c := c.skipBreak
    let given := width.map fun n => if 0 ≤ outer then outer.toNat + n else n
    let bound := c.left + 1
    let (breaks, widest, c) ← readBlockBreaks given bound c [] 0
    let indent := given.getD (max (max widest (outer + 1).toNat) 1)
    let (text, leading, trailing, c) ← readBlockLines literal indent bound c [] breaks false []
    let tail := match chomping with
      | .strip => []
      | .clip => leading
      | .keep => trailing ++ leading
    .ok ((tail ++ text).reverse, c)

end PartialResponse.Yaml
