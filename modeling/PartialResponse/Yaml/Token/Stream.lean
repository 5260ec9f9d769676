import PartialResponse.Yaml.Token.Scalar
import PartialResponse.Yaml.Token.Tag

/-!
# PartialResponse.Yaml.Token.Stream — tokens in order

The tokens of a text are produced one by one. Two things make this more than
taking the text apart. Block collections start where the text is indented more
deeply and end where it is indented less. And a key is known as a key only when
its colon is met, so a token that may start a key is kept back until the colon
comes, or until there is no more room for it: a key lies on one line and is at
most 1024 bytes long.
-/

namespace PartialResponse.Yaml

/-- A place where a key may have started. -/
structure SimpleKey where
  /-- Nothing but a key can stand there. -/
  required : Bool
  /-- The number of the key's first token. -/
  token : Nat
  index : Nat
  line : Nat
  column : Nat

/-- The tokens of a text as far as they have been produced. -/
structure TokenStream where
  cursor : Cursor
  /-- Tokens that have been produced and not been taken yet. -/
  queue : List Token
  /-- How many tokens have been taken. -/
  taken : Nat
  /-- The column of the innermost block collection, or -1 outside of all. -/
  indent : Int
  /-- The columns of the block collections around it, the innermost first. -/
  indents : List Int
  /-- Whether a key may start here. -/
  keyAllowed : Bool
  /-- The possible key at this level. -/
  possibleKey : Option SimpleKey
  /-- Whether a key may have started with each open bracket or brace, the innermost first. -/
  openings : List Bool
  /-- The keys that may have started so. Some may be too far back by now. -/
  outerKeys : List SimpleKey
  /-- The key that may have started with the outermost bracket or brace. No other one of them can stand
  where nothing but a key can. -/
  outermostKey : Option SimpleKey
  /-- How many bytes stand before the first block with a forbidden character, if there is one. -/
  faulty : Option Nat

namespace TokenStream

/-- The tokens of a text, none of them produced. -/
def start (text : List Char) : TokenStream :=
  ⟨.start text, [], 0, -1, [], true, none, [], [], none, faultyBlock? 0 0 text⟩

/-- Whether a bracket or brace is open. -/
def inFlow (s : TokenStream) : Bool :=
  !s.openings.isEmpty

/-- Produces a token at the end. -/
def put (s : TokenStream) (t : Token) : TokenStream :=
  { s with queue := s.queue ++ [t] }

/-- Produces a token in front of the one with the given number. -/
def putAt (s : TokenStream) (number : Nat) (t : Token) : TokenStream :=
  let n := number - s.taken
  { s with queue := s.queue.take n ++ t :: s.queue.drop n }

/-- Moves past characters that make up a token, and produces it. -/
def putSkip (s : TokenStream) (n : Nat) (t : Token) : TokenStream :=
  { s.put t with cursor := s.cursor.skip n }

/-! ## Keys -/

/-- Whether the place of a possible key is too far back. -/
def isStale (s : TokenStream) (k : SimpleKey) : Bool :=
  k.line < s.cursor.line || k.index + 1024 < s.cursor.index

/-- Gives up a possible key that is too far back; where only a key can stand this is an error. -/
def refreshKey (s : TokenStream) : Option SimpleKey → Except Fault (Option SimpleKey)
  | some k =>
    if s.isStale k then (if k.required then .error .missingColon else .ok none) else .ok (some k)
  | none => .ok none

/-- Gives up the possible keys that are too far back, those inside brackets and braces only as far as
that shows. -/
def refreshKeys (s : TokenStream) : Except Fault TokenStream := do
  let outermostKey ← s.refreshKey s.outermostKey
  let possibleKey ← s.refreshKey s.possibleKey
  .ok { s with possibleKey, outermostKey }

/-- Gives up the possible key at this level. -/
def dropKey (s : TokenStream) : Except Fault TokenStream :=
  match s.possibleKey with
  | some k => if k.required then .error .missingColon else .ok { s with possibleKey := none }
  | none => .ok s

/-- Notes that a key may start here, if one may. -/
def noteKey (s : TokenStream) : Except Fault TokenStream :=
  if s.keyAllowed then do
    let s ← s.dropKey
    let c := s.cursor
    .ok { s with possibleKey := some {
      required := !s.inFlow && s.indent == c.column
      token := s.taken + s.queue.length
      index := c.index
      line := c.line
      column := c.column } }
  else .ok s

/-! ## Indentation -/

/-- Starts a block collection at a column if it is indented more deeply than the innermost one.
Its start is produced by `insert`. -/
def indentTo (s : TokenStream) (column : Nat) (insert : TokenStream → TokenStream) :
    TokenStream :=
  if !s.inFlow && s.indent < column then
    insert { s with indents := s.indent :: s.indents, indent := column }
  else s

/-- Ends the block collections that are indented more deeply than a column; inside brackets and
braces indentation means nothing. -/
def unindentTo (s : TokenStream) (column : Int) : TokenStream :=
  if s.inFlow || s.indent ≤ column then s
  else
    let ended := s.indents.takeWhile (column < ·)
    match s.indents.drop ended.length with
    | [] => s
    | indent :: indents =>
      { s with queue := s.queue ++ .replicate (ended.length + 1) .blockEnd, indent, indents }

/-! ## Producing tokens -/

/-- Moves past spaces, comments and line breaks. A tab counts as a space only where no key may
start, and a byte order mark only at the start of a line. -/
def skipSpace : Nat → TokenStream → TokenStream
  | 0, s => s
  | rounds + 1, s =>
    let c := if s.cursor.column = 0 ∧ s.cursor.at? '\ufeff' then s.cursor.skip 1 else s.cursor
    let tabs := s.inFlow || !s.keyAllowed
    let c := (c.skipWhile fun x => x == ' ' || (tabs && x == '\t')).skipComment
    if c.nextIs isBreak then
      skipSpace rounds { s with cursor := c.skipBreak, keyAllowed := s.keyAllowed || !s.inFlow }
    else { s with cursor := c }

/-- Produces the end of the text. -/
def putEnd (s : TokenStream) : Except Fault TokenStream := do
  let c := s.cursor
  let s := if c.column = 0 then s else { s with cursor := { c with line := c.line + 1, column := 0 } }
  let s ← (s.unindentTo (-1)).dropKey
  .ok ({ s with keyAllowed := false }.put .streamEnd)

/-- Produces a directive. -/
def putDirective (s : TokenStream) : Except Fault TokenStream := do
  let s ← (s.unindentTo (-1)).dropKey
  let (token, cursor) ← readDirective (s.cursor.skip 1)
  .ok { s.put token with cursor, keyAllowed := false }

/-- Produces the marker of the start or the end of a document. -/
def putMarker (s : TokenStream) (token : Token) : Except Fault TokenStream := do
  let s ← (s.unindentTo (-1)).dropKey
  .ok { s.putSkip 3 token with keyAllowed := false }

/-- Produces an opening bracket or brace. -/
def putOpen (s : TokenStream) (token : Token) : Except Fault TokenStream := do
  let s ← s.noteKey
  .ok { s.putSkip 1 token with
    possibleKey := none
    openings := s.possibleKey.isSome :: s.openings
    outerKeys := s.possibleKey.toList ++ s.outerKeys
    outermostKey := if s.inFlow then s.outermostKey else s.possibleKey
    keyAllowed := true }

/-- Produces a closing bracket or brace. -/
def putClose (s : TokenStream) (token : Token) : Except Fault TokenStream := do
  let s ← s.dropKey
  let s := match s.openings with
    | [] => s
    | keyed :: more => { s with
      possibleKey := if keyed then s.outerKeys.head?.filter (!s.isStale ·) else none
      openings := more
      outerKeys := if keyed then s.outerKeys.tail else s.outerKeys
      outermostKey := if more.isEmpty then none else s.outermostKey }
  .ok { s.putSkip 1 token with keyAllowed := false }

/-- Produces a comma between entries. -/
def putFlowEntry (s : TokenStream) : Except Fault TokenStream := do
  let s ← s.dropKey
  .ok { s.putSkip 1 .flowEntry with keyAllowed := true }

/-- Starts a block collection here if need be. -/
def putStart (s : TokenStream) (token : Token) : Except Fault TokenStream :=
  if s.inFlow then .ok s
  else if s.keyAllowed then .ok (s.indentTo s.cursor.column (·.put token))
  else .error .misplacedMarker

/-- Produces the marker of a sequence entry. -/
def putBlockEntry (s : TokenStream) : Except Fault TokenStream := do
  let s ← (← s.putStart .blockSequenceStart).dropKey
  .ok { s.putSkip 1 .blockEntry with keyAllowed := true }

/-- Produces the marker of a key. -/
def putKey (s : TokenStream) : Except Fault TokenStream := do
  let s ← (← s.putStart .blockMappingStart).dropKey
  .ok { s.putSkip 1 .key with keyAllowed := !s.inFlow }

/-- Produces the marker of a value. If a key has been possible, it is now known to be one. -/
def putValue (s : TokenStream) : Except Fault TokenStream := do
  match s.possibleKey with
  | some k =>
    let s := (s.putAt k.token .key).indentTo k.column (·.putAt k.token .blockMappingStart)
    .ok { s.putSkip 1 .value with possibleKey := none, keyAllowed := false }
  | none =>
    let s ← s.putStart .blockMappingStart
    .ok { s.putSkip 1 .value with keyAllowed := !s.inFlow }

/-- Produces an anchor or an alias. -/
def putAnchor (s : TokenStream) (token : String → Token) : Except Fault TokenStream := do
  let s ← s.noteKey
  let (name, cursor) ← readAnchorName (s.cursor.skip 1)
  .ok { s.put (token name) with cursor, keyAllowed := false }

/-- Produces a tag. -/
def putTag (s : TokenStream) : Except Fault TokenStream := do
  let s ← s.noteKey
  let (token, cursor) ← readTag s.inFlow s.cursor
  .ok { s.put token with cursor, keyAllowed := false }

/-- Produces a block scalar. -/
def putBlockScalar (s : TokenStream) (literal : Bool) : Except Fault TokenStream := do
  let s ← s.dropKey
  let (text, cursor) ← readBlock literal s.indent (s.cursor.skip 1)
  .ok { s.put (.scalar (String.ofList text) false) with cursor, keyAllowed := true }

/-- Produces a quoted scalar. -/
def putQuoted (s : TokenStream) (single : Bool) : Except Fault TokenStream := do
  let s ← s.noteKey
  let c := s.cursor.skip 1
  let (text, cursor) ← readQuoted single (c.left + 1) c .none []
  .ok { s.put (.scalar (String.ofList text) false) with cursor, keyAllowed := false }

/-- Produces a plain scalar. Behind a line break a key may start again. -/
def putPlain (s : TokenStream) : Except Fault TokenStream := do
  let s ← s.noteKey
  let c := s.cursor
  let (text, newLine, cursor) ← readPlain s.inFlow (s.indent + 1) (c.left + 1) c .none []
  .ok { s.put (.scalar (String.ofList text) true) with cursor, keyAllowed := newLine }

/-- The characters that start something else than a plain scalar. -/
def isIndicator (c : Char) : Bool :=
  ['-', '?', ':', ',', '[', ']', '{', '}', '#', '&', '*', '!', '|', '>', '\'', '"', '%', '@',
    '\x60'].contains c

/-- Whether a plain scalar starts here. -/
def atPlain (s : TokenStream) : Bool :=
  let c := s.cursor
  c.nextIs (fun x => !isBlank x && !isBreak x && !isIndicator x) ||
    (c.at? '-' && !(c.skip 1).nextIs isBlank) ||
    (!s.inFlow && (c.at? '?' || c.at? ':') && !c.blankAfter 1)

/-- Moves to where the next token starts. Block collections end before it if it is indented less. -/
def approach (s : TokenStream) : Except Fault TokenStream := do
  let s ← (skipSpace (s.cursor.left + 1) s).refreshKeys
  .ok (s.unindentTo s.cursor.column)

/-- Produces the token that starts here, and those that are known with it. -/
def produceHere (s : TokenStream) : Except Fault TokenStream :=
  let c := s.cursor
  match c.rest with
  | [] => s.putEnd
  | x :: _ =>
    if c.column = 0 ∧ x = '%' then s.putDirective
    else if c.atMarker '-' then s.putMarker .documentStart
    else if c.atMarker '.' then s.putMarker .documentEnd
    else if x = '[' then s.putOpen .flowSequenceStart
    else if x = '{' then s.putOpen .flowMappingStart
    else if x = ']' then s.putClose .flowSequenceEnd
    else if x = '}' then s.putClose .flowMappingEnd
    else if x = ',' then s.putFlowEntry
    -- outside brackets these three are indicators only in front of a blank
    else if x = '-' && c.blankAfter 1 then s.putBlockEntry
    else if x = '?' && (s.inFlow || c.blankAfter 1) then s.putKey
    else if x = ':' && (s.inFlow || c.blankAfter 1) then s.putValue
    else if x = '*' then s.putAnchor .alias
    else if x = '&' then s.putAnchor .anchor
    else if x = '!' then s.putTag
    else if x = '|' && !s.inFlow then s.putBlockScalar true
    else if x = '>' && !s.inFlow then s.putBlockScalar false
    else if x = '\'' then s.putQuoted true
    else if x = '"' then s.putQuoted false
    else if s.atPlain then s.putPlain
    else .error .noToken

/-- Takes in so many further characters. -/
def takeIn (s : TokenStream) (n : Nat) : Except Fault Unit :=
  if s.faulty.any (· < (s.cursor.skip n).index) then .error .forbiddenCharacter else .ok ()

/-- Produces the next token, and those that are known with it. Before that as many characters are
taken in as the longest marker needs, and after it the next one. -/
def produce (s : TokenStream) : Except Fault TokenStream := do
  let s ← s.approach
  s.takeIn 4
  let s ← s.produceHere
  s.takeIn 1
  .ok s

/-! ## Taking tokens -/

/-- Whether one of some possible keys, the innermost first, starts with the first token. Those further
out start with earlier tokens. -/
def startsKey (s : TokenStream) : List SimpleKey → Bool
  | [] => false
  | k :: more =>
    if s.taken < k.token then s.startsKey more else k.token == s.taken && !s.isStale k

/-- Whether the first token is not yet known: there is none, or it may turn out to start a key. -/
def headOpen (s : TokenStream) : Bool :=
  s.queue.isEmpty || s.startsKey (s.possibleKey.toList ++ s.outerKeys)

/-- Produces tokens until the first one is known. -/
def settle : Nat → TokenStream → Except Fault TokenStream
  | 0, s => .ok s
  | rounds + 1, s => do
    let s ← s.refreshKeys
    if s.headOpen then settle rounds (← s.produce) else .ok s

/-- The next token, which stays in front. Behind the end of the text there is nothing but the
end. -/
def peek (s : TokenStream) : Except Fault (Token × TokenStream) := do
  let s ← s.refreshKeys
  let s ← if s.headOpen then settle (s.cursor.left + 1) (← s.produce) else .ok s
  .ok (s.queue.headD .streamEnd, s)

/-- Takes the next token. -/
def drop (s : TokenStream) : TokenStream :=
  { s with queue := s.queue.tail, taken := s.taken + 1 }

end TokenStream

end PartialResponse.Yaml
