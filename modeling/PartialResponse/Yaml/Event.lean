import PartialResponse.Yaml.Tag
import PartialResponse.Yaml.Token.Stream

/-!
# PartialResponse.Yaml.Event — what happens in a text

A YAML text is a sequence of documents, each with one node. The events of a text
tell where documents and collections start and end, and name the scalars and
aliases between. They come out of the tokens one by one; what is still expected
lies on a stack.
-/

namespace PartialResponse.Yaml

/-- The anchor and the tag of a node. -/
structure Marks where
  anchor : Option String
  tag : Option Tag
deriving DecidableEq, Repr

/-- An event of a text. -/
inductive Event where
  | documentStart
  | documentEnd
  | streamEnd
  | alias (name : String)
  /-- A scalar; a plain one has neither quotes nor a block header. -/
  | scalar (marks : Marks) (text : String) (plain : Bool)
  | sequenceStart (marks : Marks)
  | sequenceEnd
  | mappingStart (marks : Marks)
  | mappingEnd
deriving DecidableEq, Repr

/-- What comes next. -/
inductive Expectation where
  /-- A document, whose start needs no marker if it is the first one. -/
  | document (first : Bool)
  /-- The node of a document behind its start marker. -/
  | content
  | documentEnd
  | node
  /-- An entry of a sequence, or its end. `first` says that the start of the sequence is the next
  token. -/
  | blockEntry (first : Bool)
  /-- An entry of a sequence that is indented like the mapping around it. -/
  | levelEntry
  | blockKey (first : Bool)
  | blockValue
  | flowEntry (first : Bool)
  /-- The parts of a pair that stands in a sequence without braces. -/
  | pairKey
  | pairValue
  | pairEnd
  | flowKey (first : Bool)
  | flowValue
  /-- The value of a key in braces that has no colon. -/
  | missingValue
  | nothing
deriving DecidableEq, Repr

/-- The events of a text as far as they have been told. -/
structure EventStream where
  tokens : TokenStream
  expected : Expectation
  /-- What comes after the nodes that are open. -/
  later : List Expectation
  /-- The tag handles of the document, with what they stand for. -/
  handles : List (String × List UInt8)

namespace EventStream

/-- The events of a text, none of them told. -/
def start (text : List Char) : EventStream :=
  ⟨.start text, .document true, [], []⟩

/-- The tag handles that need no directive. -/
def defaultHandles : List (String × List UInt8) :=
  [("!", Text.Utf8.encode ['!']), ("!!", Tag.typePrefix)]

/-- The next token, which stays in front. -/
def peek (s : EventStream) : Except Fault (Token × EventStream) := do
  let (token, tokens) ← s.tokens.peek
  .ok (token, { s with tokens })

/-- Takes the next token. -/
def drop (s : EventStream) : EventStream :=
  { s with tokens := s.tokens.drop }

/-- Goes on with what comes after the innermost open node. -/
def leave (s : EventStream) : EventStream :=
  { s with expected := s.later.headD .nothing, later := s.later.tail }

/-- Puts off an expectation until the next node is complete. -/
def andThen (s : EventStream) (e : Expectation) : EventStream :=
  { s with later := e :: s.later }

/-- The scalar that stands where a node is left out. -/
def emptyScalar : Event :=
  .scalar ⟨none, none⟩ "" true

/-- The scalar for a node that is left out, and what is expected after it. -/
def leaveOut (s : EventStream) (e : Expectation) : Event × EventStream :=
  (emptyScalar, { s with expected := e })

/-! ## Nodes -/

/-- The tag for a handle and a suffix. -/
def expandTag (handles : List (String × List UInt8)) (handle : String) (suffix : List UInt8) :
    Except Fault Tag :=
  if handle = "" then .ok (.ofBytes suffix)
  else
    match handles.lookup handle with
    | some expansion => .ok (.ofBytes (expansion ++ suffix))
    | none => .error .undeclaredHandle

/-- Reads the anchor and the tag in front of a node, in either order. -/
def readMarks (s : EventStream) : Except Fault (Marks × EventStream) := do
  let (token, s) ← s.peek
  match token with
  | .anchor name =>
    let (token, s) ← s.drop.peek
    match token with
    | .tag handle suffix =>
      let tag ← expandTag s.handles handle suffix
      .ok (⟨some name, some tag⟩, s.drop)
    | _ => .ok (⟨some name, none⟩, s)
  | .tag handle suffix =>
    let (token, s) ← s.drop.peek
    match token with
    | .anchor name =>
      let (_, s) ← s.drop.peek
      let tag ← expandTag s.handles handle suffix
      .ok (⟨some name, some tag⟩, s)
    | _ =>
      let tag ← expandTag s.handles handle suffix
      .ok (⟨none, some tag⟩, s)
  | _ => .ok (⟨none, none⟩, s)

/-- Reads a node. `block` says whether block collections may start here, and `level` whether a
sequence may start without being indented. -/
def readNode (block level : Bool) (s : EventStream) : Except Fault (Event × EventStream) := do
  let (token, s) ← s.peek
  match token with
  | .alias name => .ok (.alias name, s.drop.leave)
  | _ =>
    let (marks, s) ← s.readMarks
    let (token, s) ← s.peek
    match token with
    | .scalar text plain => .ok (.scalar marks text plain, s.drop.leave)
    | .flowSequenceStart => .ok (.sequenceStart marks, { s with expected := .flowEntry true })
    | .flowMappingStart => .ok (.mappingStart marks, { s with expected := .flowKey true })
    | _ =>
      if level && token = .blockEntry then
        .ok (.sequenceStart marks, { s with expected := .levelEntry })
      else if block && token = .blockSequenceStart then
        .ok (.sequenceStart marks, { s with expected := .blockEntry true })
      else if block && token = .blockMappingStart then
        .ok (.mappingStart marks, { s with expected := .blockKey true })
      else if marks.anchor.isSome || marks.tag.isSome then
        .ok (.scalar marks "" true, s.leave)
      else .error .expectedNode

/-! ## Documents -/

/-- Reads the directives in front of a document, of which the first argument bounds the number. -/
def readDirectives : Nat → EventStream → Bool → List (String × List UInt8) →
    Except Fault (List (String × List UInt8) × EventStream)
  | 0, s, _, declared => .ok (declared, s)
  | rounds + 1, s, versioned, declared => do
    let (token, s) ← s.peek
    match token with
    | .versionDirective major minor =>
      if versioned then .error .repeatedDirective
      else if major = 1 ∧ (minor = 1 ∨ minor = 2) then
        readDirectives rounds s.drop true declared
      else .error .unsupportedVersion
    | .tagDirective handle expansion =>
      if (declared.lookup handle).isSome then .error .repeatedDirective
      else readDirectives rounds s.drop versioned (declared ++ [(handle, expansion)])
    | _ => .ok (declared, s)

/-- Moves past the end markers in front of a document, of which the first argument bounds the
number. -/
def skipEndMarkers : Nat → EventStream → Except Fault EventStream
  | 0, s => .ok s
  | rounds + 1, s => do
    let (token, s) ← s.peek
    if token = .documentEnd then skipEndMarkers rounds s.drop else .ok s

/-- A bound on the tokens still to come. -/
def bound (s : EventStream) : Nat :=
  4 * s.tokens.cursor.left + s.tokens.queue.length + 4

/-- Whether a token belongs in front of the node of a document or behind it. -/
def isDocumentToken : Token → Bool
  | .versionDirective _ _ => true
  | .tagDirective _ _ => true
  | .documentStart => true
  | .documentEnd => true
  | .streamEnd => true
  | _ => false

/-- Reads the start of a document, or the end of the text. -/
def readDocumentStart (first : Bool) (s : EventStream) : Except Fault (Event × EventStream) := do
  let s ← if first then .ok s else skipEndMarkers s.bound s
  let (token, s) ← s.peek
  if token = .streamEnd then .ok (.streamEnd, { s.drop with expected := .nothing })
  else if first && (token = .documentEnd || !isDocumentToken token) then
    .ok (.documentStart,
      { s.andThen .documentEnd with expected := .node, handles := defaultHandles })
  else
    let (declared, s) ← readDirectives s.bound s false []
    let (token, s) ← s.peek
    if token = .documentStart then
      .ok (.documentStart, { s.drop.andThen .documentEnd with
        expected := .content, handles := declared ++ defaultHandles })
    else .error .expectedDocument

/-! ## Collections -/

/-- Reads an entry of an indented sequence, or its end. -/
def readBlockEntry (s : EventStream) : Except Fault (Event × EventStream) := do
  let (token, s) ← s.peek
  match token with
  | .blockEntry =>
    let (token, s) ← s.drop.peek
    if token = .blockEntry ∨ token = .blockEnd then .ok (s.leaveOut (.blockEntry false))
    else (s.andThen (.blockEntry false)).readNode true false
  | .blockEnd => .ok (.sequenceEnd, s.drop.leave)
  | _ => .error .expectedEntry

/-- Reads an entry of a sequence that is not indented, or its end. -/
def readLevelEntry (s : EventStream) : Except Fault (Event × EventStream) := do
  let (token, s) ← s.peek
  match token with
  | .blockEntry =>
    let (token, s) ← s.drop.peek
    if token = .blockEntry ∨ token = .key ∨ token = .value ∨ token = .blockEnd then
      .ok (s.leaveOut .levelEntry)
    else (s.andThen .levelEntry).readNode true false
  | _ => .ok (.sequenceEnd, s.leave)

/-- Reads a part of a pair in an indented mapping behind its marker. -/
def readBlockPart (after : Expectation) (s : EventStream) :
    Except Fault (Event × EventStream) := do
  let (token, s) ← s.drop.peek
  if token = .key ∨ token = .value ∨ token = .blockEnd then .ok (s.leaveOut after)
  else (s.andThen after).readNode true true

/-- Reads a key of an indented mapping, or its end. -/
def readBlockKey (s : EventStream) : Except Fault (Event × EventStream) := do
  let (token, s) ← s.peek
  match token with
  | .key => s.readBlockPart .blockValue
  | .blockEnd => .ok (.mappingEnd, s.drop.leave)
  | _ => .error .expectedEntry

/-- Reads a value of an indented mapping. -/
def readBlockValue (s : EventStream) : Except Fault (Event × EventStream) := do
  let (token, s) ← s.peek
  match token with
  | .value => s.readBlockPart (.blockKey false)
  | _ => .ok (s.leaveOut (.blockKey false))

/-- Moves past the comma in front of an entry that is not the first one. -/
def skipComma (first : Bool) (s : EventStream) : Except Fault EventStream := do
  if first then .ok s
  else
    let (token, s) ← s.peek
    if token = .flowEntry then .ok s.drop else .error .expectedEntry

/-- Reads an entry of a sequence in brackets, or its end. -/
def readFlowEntry (first : Bool) (s : EventStream) : Except Fault (Event × EventStream) := do
  let (token, s) ← s.peek
  if token = .flowSequenceEnd then .ok (.sequenceEnd, s.drop.leave)
  else
    let s ← s.skipComma first
    let (token, s) ← s.peek
    match token with
    | .flowSequenceEnd => .ok (.sequenceEnd, s.drop.leave)
    | .key => .ok (.mappingStart ⟨none, none⟩, { s.drop with expected := .pairKey })
    | _ => (s.andThen (.flowEntry false)).readNode false false

/-- Reads the key of a pair in a sequence. -/
def readPairKey (s : EventStream) : Except Fault (Event × EventStream) := do
  let (token, s) ← s.peek
  if token = .value ∨ token = .flowEntry ∨ token = .flowSequenceEnd then
    .ok (s.drop.leaveOut .pairValue)
  else (s.andThen .pairValue).readNode false false

/-- Reads the value of a pair in a sequence. -/
def readPairValue (s : EventStream) : Except Fault (Event × EventStream) := do
  let (token, s) ← s.peek
  match token with
  | .value =>
    let (token, s) ← s.drop.peek
    if token = .flowEntry ∨ token = .flowSequenceEnd then .ok (s.leaveOut .pairEnd)
    else (s.andThen .pairEnd).readNode false false
  | _ => .ok (s.leaveOut .pairEnd)

/-- Reads a key of a mapping in braces, or its end. -/
def readFlowKey (first : Bool) (s : EventStream) : Except Fault (Event × EventStream) := do
  let (token, s) ← s.peek
  if token = .flowMappingEnd then .ok (.mappingEnd, s.drop.leave)
  else
    let s ← s.skipComma first
    let (token, s) ← s.peek
    match token with
    | .flowMappingEnd => .ok (.mappingEnd, s.drop.leave)
    | .key =>
      let (token, s) ← s.drop.peek
      if token = .value ∨ token = .flowEntry ∨ token = .flowMappingEnd then
        .ok (s.leaveOut .flowValue)
      else (s.andThen .flowValue).readNode false false
    | _ => (s.andThen .missingValue).readNode false false

/-- Reads a value of a mapping in braces. -/
def readFlowValue (s : EventStream) : Except Fault (Event × EventStream) := do
  let (token, s) ← s.peek
  match token with
  | .value =>
    let (token, s) ← s.drop.peek
    if token = .flowEntry ∨ token = .flowMappingEnd then .ok (s.leaveOut (.flowKey false))
    else (s.andThen (.flowKey false)).readNode false false
  | _ => .ok (s.leaveOut (.flowKey false))

/-! ## Events in order -/

/-- Moves past the start of a collection, if its first entry is wanted. -/
def skipStart (first : Bool) (s : EventStream) : Except Fault EventStream :=
  if first then do
    let (_, s) ← s.peek
    .ok s.drop
  else .ok s

/-- Tells the next event. -/
def next (s : EventStream) : Except Fault (Event × EventStream) := do
  match s.expected with
  | .document first => s.readDocumentStart first
  | .content =>
    let (token, s) ← s.peek
    -- a document without content has an empty scalar for its root
    if isDocumentToken token then .ok (emptyScalar, s.leave) else s.readNode true false
  | .documentEnd =>
    let (token, s) ← s.peek
    let s := if token = .documentEnd then s.drop else s
    .ok (.documentEnd, { s with expected := .document false, handles := [] })
  | .node => s.readNode true false
  | .blockEntry first => (← s.skipStart first).readBlockEntry
  | .levelEntry => s.readLevelEntry
  | .blockKey first => (← s.skipStart first).readBlockKey
  | .blockValue => s.readBlockValue
  | .flowEntry first => (← s.skipStart first).readFlowEntry first
  | .pairKey => s.readPairKey
  | .pairValue => s.readPairValue
  | .pairEnd =>
    let (_, s) ← s.peek
    .ok (.mappingEnd, { s with expected := .flowEntry false })
  | .flowKey first => (← s.skipStart first).readFlowKey first
  | .flowValue => s.readFlowValue
  | .missingValue =>
    let (_, s) ← s.peek
    .ok (s.leaveOut (.flowKey false))
  | .nothing => .ok (.streamEnd, s)

end EventStream

end PartialResponse.Yaml
