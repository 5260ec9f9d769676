import PartialResponse.Proofs.Yaml.Scanning
import PartialResponse.Yaml.Event

/-!
# PartialResponse.Proofs.Yaml.Events — the events of a written tree

The tokens of a tree are told as the events that the tree says: `eventsOf` names them.
Each kind of node is told from its first token up to the token behind it, whatever is
expected there. Where an array ends without a token of its own, the token behind it
is needed to see the end.
-/

namespace PartialResponse.Yaml

/-! ## Events of a tree -/

/-- A node without anchor and tag. -/
def unmarked : Marks := ⟨none, none⟩

mutual

/-- The events of a value. -/
def eventsOf : Tree → List Event
  | .scalar value => [.scalar unmarked (shownText value) (showsPlain value)]
  | .array items => .sequenceStart unmarked :: (itemEvents items ++ [.sequenceEnd])
  | .object properties => .mappingStart unmarked :: (propertyEvents properties ++ [.mappingEnd])

/-- The events of items. -/
def itemEvents : List Tree → List Event
  | [] => []
  | item :: rest => eventsOf item ++ itemEvents rest

/-- The events of properties. -/
def propertyEvents : Properties Tree → List Event
  | [] => []
  | (name, value) :: rest =>
    .scalar unmarked name (styleOf name == .plain) :: (eventsOf value ++ propertyEvents rest)

end

namespace EventStream

open TokenStream (Yields stringToken)

/-! ## Looking at the next token -/

/-- Whether the next token has been seen and others come behind it. -/
def Shows (t : Token) (rest : List Token) (ts : TokenStream) : Prop :=
  ts.peek = .ok (t, ts) ∧ Yields rest ts.drop

variable {t : Token} {rest : List Token} {ts : TokenStream} {e : Expectation} {later : List Expectation}
  {handles : List (String × List UInt8)}

/-- A token that has been seen can be taken. -/
theorem Shows.yields (h : Shows t rest ts) : Yields (t :: rest) ts :=
  ⟨ts, h.1, h.1, h.2⟩

/-- Looking at a token that has been seen changes nothing. -/
theorem Shows.peek_eq (h : Shows t rest ts) :
    EventStream.peek ⟨ts, e, later, handles⟩ = .ok (t, ⟨ts, e, later, handles⟩) := by
  rw [EventStream.peek, h.1]
  rfl

/-- Looking at the next token changes nothing but what is known of the tokens. -/
theorem exists_peek (h : Yields (t :: rest) ts) :
    ∃ ts', Shows t rest ts' ∧ ∀ e later handles,
      EventStream.peek ⟨ts, e, later, handles⟩ = .ok (t, ⟨ts', e, later, handles⟩) := by
  obtain ⟨ts', hpeek, hagain, hrest⟩ := h
  refine ⟨ts', ⟨hagain, hrest⟩, fun e later handles => ?_⟩
  rw [EventStream.peek, hpeek]
  rfl

/-! ## Telling events -/

/-- Whether these events are told next, and how it goes on behind them. -/
def Tells : EventStream → List Event → EventStream → Prop
  | s, [], s' => s = s'
  | s, event :: more, s' => ∃ m, s.next = .ok (event, m) ∧ Tells m more s'

/-- Events in two goes. -/
theorem Tells.append {s m s' : EventStream} {first more : List Event} (h : Tells s first m)
    (h' : Tells m more s') : Tells s (first ++ more) s' := by
  induction first generalizing s with
  | nil =>
    obtain rfl : s = m := h
    exact h'
  | cons event first ih =>
    obtain ⟨m', hnext, hmore⟩ := h
    exact ⟨m', hnext, ih hmore⟩

/-- Whether a reader tells the first of these events, and the others are told behind it. -/
def TellsBy (read : EventStream → Except Fault (Event × EventStream)) (s : EventStream) :
    List Event → EventStream → Prop
  | [], _ => False
  | event :: more, s' => ∃ m, read s = .ok (event, m) ∧ Tells m more s'

/-- A reader tells the first event, and the rest is told behind it. -/
theorem TellsBy.append {read : EventStream → Except Fault (Event × EventStream)} {s m s' : EventStream}
    {first more : List Event} (h : TellsBy read s first m) (h' : Tells m more s') :
    TellsBy read s (first ++ more) s' := by
  cases first with
  | nil => exact h.elim
  | cons event first =>
    obtain ⟨m', hread, hmore⟩ := h
    exact ⟨m', hread, hmore.append h'⟩

/-- One reader does what another one does elsewhere. -/
theorem TellsBy.of_eq {read read' : EventStream → Except Fault (Event × EventStream)}
    {s m s' : EventStream} {told : List Event} (h : TellsBy read m told s') (hsame : read' s = read m) :
    TellsBy read' s told s' := by
  cases told with
  | nil => exact h.elim
  | cons event more =>
    obtain ⟨m', hread, hmore⟩ := h
    exact ⟨m', hsame.trans hread, hmore⟩

/-- What the reader of events does is what is told next. -/
theorem TellsBy.tells {s s' : EventStream} {told : List Event} (h : TellsBy next s told s') :
    Tells s told s' := by
  cases told with
  | nil => exact h.elim
  | cons event more => exact h

/-! ## Starts of nodes -/

/-- The tokens that a written value starts with where it is not behind its key. -/
inductive StartsNode : Token → Prop
  | scalar (text : String) (plain : Bool) : StartsNode (.scalar text plain)
  | flowSequenceStart : StartsNode .flowSequenceStart
  | flowMappingStart : StartsNode .flowMappingStart
  | blockSequenceStart : StartsNode .blockSequenceStart
  | blockMappingStart : StartsNode .blockMappingStart

/-- Every value has a token to start with. -/
theorem exists_tokens (value : Tree) : ∃ t more, tokensOf value = t :: more ∧ StartsNode t := by
  cases value with
  | scalar value => exact ⟨scalarToken value, [], by rw [tokensOf], .scalar _ _⟩
  | array items =>
    rw [tokensOf]
    split
    · exact ⟨_, _, rfl, .flowSequenceStart⟩
    · exact ⟨_, _, rfl, .blockSequenceStart⟩
  | object properties =>
    rw [tokensOf]
    split
    · exact ⟨_, _, rfl, .flowMappingStart⟩
    · exact ⟨_, _, rfl, .blockMappingStart⟩

/-- No value starts with a token of documents. -/
theorem StartsNode.not_isDocumentToken (h : StartsNode t) : isDocumentToken t = false := by
  cases h <;> rfl

/-- The first token of a value may be looked at beforehand. -/
theorem exists_peek_tokensOf {value : Tree} (h : Yields (tokensOf value ++ rest) ts) :
    ∃ t ts', StartsNode t ∧ Yields (tokensOf value ++ rest) ts' ∧ ∀ e later handles,
      EventStream.peek ⟨ts, e, later, handles⟩ = .ok (t, ⟨ts', e, later, handles⟩) := by
  obtain ⟨t, more, htokens, hstart⟩ := exists_tokens value
  rw [htokens] at h ⊢
  obtain ⟨ts', hshows, hpeek⟩ := exists_peek h
  exact ⟨t, ts', hstart, hshows.yields, hpeek⟩

/-- The event of a node that starts with the given token, and how it goes on. -/
def started (t : Token) (ts : TokenStream) (e : Expectation) (later : List Expectation)
    (handles : List (String × List UInt8)) : Event × EventStream :=
  match t with
  | .scalar text plain => (.scalar unmarked text plain, leave ⟨ts.drop, e, later, handles⟩)
  | .flowSequenceStart => (.sequenceStart unmarked, ⟨ts, .flowEntry true, later, handles⟩)
  | .flowMappingStart => (.mappingStart unmarked, ⟨ts, .flowKey true, later, handles⟩)
  | .blockSequenceStart => (.sequenceStart unmarked, ⟨ts, .blockEntry true, later, handles⟩)
  | .blockEntry => (.sequenceStart unmarked, ⟨ts, .levelEntry, later, handles⟩)
  | _ => (.mappingStart unmarked, ⟨ts, .blockKey true, later, handles⟩)

/-- A node without anchor and tag is known by its first token. -/
theorem exists_readNode {level : Bool} (h : Yields (t :: rest) ts)
    (hstart : StartsNode t ∨ level = true ∧ t = .blockEntry) :
    ∃ ts', Shows t rest ts' ∧ ∀ e later handles,
      readNode true level ⟨ts, e, later, handles⟩ = .ok (started t ts' e later handles) := by
  obtain ⟨ts', hshows, hpeek⟩ := exists_peek h
  refine ⟨ts', hshows, fun e later handles => ?_⟩
  rcases hstart with hstart | ⟨rfl, rfl⟩
  · cases hstart <;> simp [readNode, readMarks, hpeek, hshows.peek_eq, unmarked, drop, leave, started]
  · simp [readNode, readMarks, hpeek, hshows.peek_eq, unmarked, started]

/-! ## Values -/

/-- Whether a value is told where a node is expected. -/
def TellsHere (value : Tree) : Prop :=
  ∀ {rest : List Token} {ts : TokenStream} (level : Bool) (e : Expectation) (later : List Expectation)
    (handles : List (String × List UInt8)), Yields (tokensOf value ++ rest) ts →
    ∃ ts', Yields rest ts' ∧ TellsBy (readNode true level) ⟨ts, e, later, handles⟩ (eventsOf value)
      (leave ⟨ts', e, later, handles⟩)

/-- Whether a value is told behind its key. The token behind it has to show that no further item
comes. -/
def TellsLevel (value : Tree) : Prop :=
  ∀ {t : Token} {rest : List Token} {ts : TokenStream} (e : Expectation) (later : List Expectation)
    (handles : List (String × List UInt8)), t ≠ .blockEntry → Yields (levelTokens value ++ t :: rest) ts →
    ∃ ts', Yields (t :: rest) ts' ∧ TellsBy (readNode true true) ⟨ts, e, later, handles⟩ (eventsOf value)
      (leave ⟨ts', e, later, handles⟩)

/-- A value with the same tokens in both places. -/
theorem TellsHere.level {value : Tree} (h : TellsHere value) (hsame : levelTokens value = tokensOf value) :
    TellsLevel value := by
  intro t rest ts e later handles _ hyields
  exact h true e later handles (hsame ▸ hyields)

/-- A scalar is one token and one event. -/
theorem tellsHere_scalar (value : Scalar) : TellsHere (.scalar value) := by
  intro rest ts level e later handles h
  rw [tokensOf] at h
  obtain ⟨ts', hshows, hread⟩ := exists_readNode h (.inl (.scalar _ _))
  exact ⟨ts'.drop, hshows.2, by rw [eventsOf]; exact ⟨_, hread e later handles, rfl⟩⟩

/-- The tokens of empty collections and what they are told as. -/
inductive TellsEmpty : Token → Token → List Event → Prop
  | array : TellsEmpty .flowSequenceStart .flowSequenceEnd [.sequenceStart unmarked, .sequenceEnd]
  | object : TellsEmpty .flowMappingStart .flowMappingEnd [.mappingStart unmarked, .mappingEnd]

/-- An empty collection starts with its bracket. -/
theorem TellsEmpty.startsNode {start stop : Token} {told : List Event} (h : TellsEmpty start stop told) :
    StartsNode start := by
  cases h with
  | array => exact .flowSequenceStart
  | object => exact .flowMappingStart

/-- An empty collection. -/
theorem tellsHere_empty {start stop : Token} {told : List Event} {value : Tree}
    (hempty : TellsEmpty start stop told) (htokens : tokensOf value = [start, stop])
    (hevents : eventsOf value = told) : TellsHere value := by
  intro rest ts level e later handles h
  rw [htokens] at h
  obtain ⟨ts₁, hshows₁, hread⟩ := exists_readNode h (.inl hempty.startsNode)
  obtain ⟨ts₂, hshows₂, hpeek⟩ := exists_peek hshows₁.2
  refine ⟨ts₂.drop, hshows₂.2, ?_⟩
  rw [hevents]
  cases hempty with
  | array =>
    refine ⟨_, hread e later handles, _, ?_, rfl⟩
    simp [next, skipStart, hshows₁.peek_eq, drop, readFlowEntry, hpeek, leave]
  | object =>
    refine ⟨_, hread e later handles, _, ?_, rfl⟩
    simp [next, skipStart, hshows₁.peek_eq, drop, readFlowKey, hpeek, leave]

/-! ## Items -/

/-- The items of an array and its end, told by a reader of entries. `again` is what is expected behind
an item, `behind` what comes behind the items, and `left` what is left of that. -/
theorem tells_items (read : EventStream → Except Fault (Event × EventStream)) (again : Expectation)
    {behind left : List Token} {items : List Tree} (hitems : ∀ item ∈ items, TellsHere item)
    (hnext : ∀ ts, next ⟨ts, again, later, handles⟩ = read ⟨ts, again, later, handles⟩)
    (hentry : ∀ {t more ts}, StartsNode t → Yields (.blockEntry :: t :: more) ts →
      ∃ ts', Yields (t :: more) ts' ∧
        ∀ e, read ⟨ts, e, later, handles⟩ = readNode true false ⟨ts', e, again :: later, handles⟩)
    (hend : ∀ {ts}, Yields behind ts → ∃ ts', Yields left ts' ∧
      ∀ e, read ⟨ts, e, later, handles⟩ = .ok (.sequenceEnd, leave ⟨ts', e, later, handles⟩))
    (h : Yields (itemTokens items ++ behind) ts) :
    ∃ ts', Yields left ts' ∧ TellsBy read ⟨ts, e, later, handles⟩ (itemEvents items ++ [.sequenceEnd])
      (leave ⟨ts', e, later, handles⟩) := by
  induction items generalizing ts e with
  | nil =>
    rw [itemTokens] at h
    obtain ⟨ts', hleft, hread⟩ := hend h
    exact ⟨ts', hleft, by rw [itemEvents]; exact ⟨_, hread e, rfl⟩⟩
  | cons item more ih =>
    obtain ⟨hitem, hmore⟩ := List.forall_mem_cons.1 hitems
    obtain ⟨t, others, htokens, hstart⟩ := exists_tokens item
    rw [itemTokens, htokens] at h
    obtain ⟨ts₁, hyields, hread⟩ := hentry hstart (by simpa using h)
    -- the item is told with the reader's own expectation put off
    have hitemTokens : Yields (tokensOf item ++ (itemTokens more ++ behind)) ts₁ := by
      rw [htokens]
      simpa using hyields
    obtain ⟨ts₂, hyields₂, htold⟩ := hitem false e (again :: later) handles hitemTokens
    obtain ⟨ts₃, hleft, hrest⟩ := ih hmore hyields₂ (e := again)
    refine ⟨ts₃, hleft, ?_⟩
    rw [itemEvents, List.append_assoc]
    exact (htold.of_eq (hread e)).append (hrest.of_eq (hnext ts₂)).tells

/-- An entry of an array that is indented: its mark, and then a node. -/
theorem readBlockEntry_entry (hstart : StartsNode t) (h : Yields (.blockEntry :: t :: rest) ts) :
    ∃ ts', Yields (t :: rest) ts' ∧ ∀ e, readBlockEntry ⟨ts, e, later, handles⟩ =
      readNode true false ⟨ts', e, .blockEntry false :: later, handles⟩ := by
  obtain ⟨ts₁, hshows₁, hpeek₁⟩ := exists_peek h
  obtain ⟨ts₂, hshows₂, hpeek₂⟩ := exists_peek hshows₁.2
  refine ⟨ts₂, hshows₂.yields, fun e => ?_⟩
  -- a node follows, so the entry is not empty
  cases hstart <;> simp [readBlockEntry, hpeek₁, drop, hpeek₂, andThen]

/-- An entry of an array that is level with its key. -/
theorem readLevelEntry_entry (hstart : StartsNode t) (h : Yields (.blockEntry :: t :: rest) ts) :
    ∃ ts', Yields (t :: rest) ts' ∧ ∀ e, readLevelEntry ⟨ts, e, later, handles⟩ =
      readNode true false ⟨ts', e, .levelEntry :: later, handles⟩ := by
  obtain ⟨ts₁, hshows₁, hpeek₁⟩ := exists_peek h
  obtain ⟨ts₂, hshows₂, hpeek₂⟩ := exists_peek hshows₁.2
  refine ⟨ts₂, hshows₂.yields, fun e => ?_⟩
  cases hstart <;> simp [readLevelEntry, hpeek₁, drop, hpeek₂, andThen]

/-- An array that is indented ends with a token of its own. -/
theorem readBlockEntry_end (h : Yields (.blockEnd :: rest) ts) :
    ∃ ts', Yields rest ts' ∧ ∀ e,
      readBlockEntry ⟨ts, e, later, handles⟩ = .ok (.sequenceEnd, leave ⟨ts', e, later, handles⟩) := by
  obtain ⟨ts', hshows, hpeek⟩ := exists_peek h
  exact ⟨ts'.drop, hshows.2, fun e => by simp [readBlockEntry, hpeek, drop, leave]⟩

/-- An array behind its key ends in front of the next token. -/
theorem readLevelEntry_end (hne : t ≠ .blockEntry) (h : Yields (t :: rest) ts) :
    ∃ ts', Yields (t :: rest) ts' ∧ ∀ e,
      readLevelEntry ⟨ts, e, later, handles⟩ = .ok (.sequenceEnd, leave ⟨ts', e, later, handles⟩) := by
  obtain ⟨ts', hshows, hpeek⟩ := exists_peek h
  refine ⟨ts', hshows.yields, fun e => ?_⟩
  rw [readLevelEntry, hpeek, ok_bind]
  cases t with
  | blockEntry => exact absurd rfl hne
  | _ => rfl

/-- An array where a node is expected. -/
theorem tellsHere_items {item : Tree} {more : List Tree} (hitems : ∀ x ∈ item :: more, TellsHere x) :
    TellsHere (.array (item :: more)) := by
  intro rest ts level e later handles h
  have htokens : tokensOf (.array (item :: more)) ++ rest =
      .blockSequenceStart :: (itemTokens (item :: more) ++ .blockEnd :: rest) := by
    simp [tokensOf]
  rw [htokens] at h
  obtain ⟨ts₁, hshows, hread⟩ := exists_readNode h (.inl .blockSequenceStart)
  obtain ⟨ts₂, hleft, htold⟩ := tells_items readBlockEntry (.blockEntry false) hitems (fun _ => rfl)
    readBlockEntry_entry readBlockEntry_end hshows.2 (e := .blockEntry true)
  refine ⟨ts₂, hleft, ?_⟩
  rw [eventsOf]
  refine ⟨_, hread e later handles, (htold.of_eq ?_).tells⟩
  simp [next, skipStart, hshows.peek_eq, drop]

/-- An array behind its key. -/
theorem tellsLevel_items {item : Tree} {more : List Tree} (hitems : ∀ x ∈ item :: more, TellsHere x) :
    TellsLevel (.array (item :: more)) := by
  intro t rest ts e later handles hne h
  have htokens : levelTokens (.array (item :: more)) ++ t :: rest =
      .blockEntry :: (tokensOf item ++ itemTokens more ++ t :: rest) := by
    simp [levelTokens, itemTokens]
  rw [htokens] at h
  obtain ⟨ts₁, hshows, hread⟩ := exists_readNode h (.inr ⟨rfl, rfl⟩)
  obtain ⟨ts₂, hleft, htold⟩ := tells_items readLevelEntry .levelEntry hitems (fun _ => rfl)
    readLevelEntry_entry (readLevelEntry_end hne) (by simpa [itemTokens] using hshows.yields)
    (e := .levelEntry)
  refine ⟨ts₂, hleft, ?_⟩
  rw [eventsOf]
  have hsame : next ⟨ts₁, .levelEntry, later, handles⟩ = readLevelEntry ⟨ts₁, .levelEntry, later, handles⟩ := rfl
  exact ⟨_, hread e later handles, (htold.of_eq hsame).tells⟩

/-! ## Properties -/

/-- The part of a property behind a mark. -/
theorem readBlockPart_eq {mark : Token} (after : Expectation) (hshows : Shows mark (t :: rest) ts)
    (hstart : StartsNode t ∨ t = .blockEntry) :
    ∃ ts', Yields (t :: rest) ts' ∧ ∀ e later handles, readBlockPart after ⟨ts, e, later, handles⟩ =
      readNode true true ⟨ts', e, after :: later, handles⟩ := by
  obtain ⟨ts', hshows', hpeek⟩ := exists_peek hshows.2
  refine ⟨ts', hshows'.yields, fun e later handles => ?_⟩
  rcases hstart with hstart | rfl
  · cases hstart <;> simp [readBlockPart, drop, hpeek, andThen]
  · simp [readBlockPart, drop, hpeek, andThen]

/-- The tokens of a property's value. -/
def valueTokens (name : String) (value : Tree) : List Token :=
  if isSimpleKey name then levelTokens value else tokensOf value

/-- Behind its key, an array starts with an entry and everything else with a node. -/
theorem exists_levelTokens (value : Tree) :
    ∃ t more, levelTokens value = t :: more ∧ (StartsNode t ∨ t = .blockEntry) := by
  obtain ⟨t, more, htokens, hstart⟩ := exists_tokens value
  cases value with
  | array items =>
    cases items with
    | nil => exact ⟨_, _, rfl, .inl .flowSequenceStart⟩
    | cons item more => exact ⟨_, _, by simp only [levelTokens, itemTokens]; rfl, .inr rfl⟩
  | scalar value => exact ⟨t, more, htokens, .inl hstart⟩
  | object properties => exact ⟨t, more, htokens, .inl hstart⟩

/-- The value of a property starts with an entry or a node. -/
theorem exists_valueTokens (name : String) (value : Tree) :
    ∃ t more, valueTokens name value = t :: more ∧ (StartsNode t ∨ t = .blockEntry) := by
  unfold valueTokens
  split
  · exact exists_levelTokens value
  · obtain ⟨t, more, htokens, hstart⟩ := exists_tokens value
    exact ⟨t, more, htokens, .inl hstart⟩

/-- The value of a property. -/
theorem tells_value {value : Tree} (hvalue : TellsHere value ∧ TellsLevel value) (name : String)
    (e : Expectation) (later : List Expectation) (handles : List (String × List UInt8))
    (hne : t ≠ .blockEntry) (h : Yields (valueTokens name value ++ t :: rest) ts) :
    ∃ ts', Yields (t :: rest) ts' ∧ TellsBy (readNode true true) ⟨ts, e, later, handles⟩ (eventsOf value)
      (leave ⟨ts', e, later, handles⟩) := by
  unfold valueTokens at h
  split at h
  · exact hvalue.2 e later handles hne h
  · exact hvalue.1 true e later handles h

/-- One property. -/
theorem tells_property {name : String} {value : Tree} (hvalue : TellsHere value ∧ TellsLevel value)
    (e : Expectation) (later : List Expectation) (handles : List (String × List UInt8))
    (hne : t ≠ .blockEntry)
    (h : Yields (.key :: stringToken name :: .value :: (valueTokens name value ++ t :: rest)) ts) :
    ∃ ts', Yields (t :: rest) ts' ∧ TellsBy readBlockKey ⟨ts, e, later, handles⟩
      (.scalar unmarked name (styleOf name == .plain) :: eventsOf value)
      ⟨ts', .blockKey false, later, handles⟩ := by
  obtain ⟨ts₁, hshows₁, hpeek₁⟩ := exists_peek h
  obtain ⟨ts₂, hyields₂, hread₂⟩ := readBlockPart_eq .blockValue hshows₁ (.inl (.scalar _ _))
  have hkeyTokens : Yields (tokensOf (.scalar (.string name)) ++
      .value :: (valueTokens name value ++ t :: rest)) ts₂ := by
    rw [tokensOf]
    exact hyields₂
  -- the key is told as a value would be
  obtain ⟨ts₃, hyields₃, hkey⟩ :=
    tellsHere_scalar (.string name) true e (.blockValue :: later) handles hkeyTokens
  -- the mark behind the key, and the first token of the value
  obtain ⟨first, others, htokens, hstart⟩ := exists_valueTokens name value
  obtain ⟨ts₄, hshows₄, hpeek₄⟩ := exists_peek hyields₃
  rw [htokens] at hshows₄
  obtain ⟨ts₅, hyields₅, hread₅⟩ := readBlockPart_eq (.blockKey false) hshows₄ hstart
  have hvalueTokens : Yields (valueTokens name value ++ t :: rest) ts₅ := by
    rw [htokens]
    exact hyields₅
  obtain ⟨ts₆, hyields₆, htold⟩ :=
    tells_value hvalue name .blockValue (.blockKey false :: later) handles hne hvalueTokens
  -- both parts are read as nodes
  have hreadKey : readBlockKey ⟨ts, e, later, handles⟩ =
      readNode true true ⟨ts₂, e, .blockValue :: later, handles⟩ := by
    rw [readBlockKey, hpeek₁]
    exact hread₂ e later handles
  have hreadValue : next ⟨ts₃, .blockValue, later, handles⟩ =
      readNode true true ⟨ts₅, .blockValue, .blockKey false :: later, handles⟩ := by
    rw [next, readBlockValue, hpeek₄]
    exact hread₅ .blockValue later handles
  refine ⟨ts₆, hyields₆, ?_⟩
  rw [eventsOf] at hkey
  exact (hkey.of_eq hreadKey).append (htold.of_eq hreadValue).tells

/-- The tokens of properties are those of the first one and of the others. -/
theorem propertyTokens_cons (name : String) (value : Tree) (more : Properties Tree) :
    propertyTokens ((name, value) :: more) =
      .key :: stringToken name :: .value :: (valueTokens name value ++ propertyTokens more) := by
  rw [propertyTokens, valueTokens]

/-- The properties of an object and its end. -/
theorem tells_properties {properties : Properties Tree}
    (hvalues : ∀ property ∈ properties, TellsHere property.2 ∧ TellsLevel property.2)
    (h : Yields (propertyTokens properties ++ .blockEnd :: rest) ts) :
    ∃ ts', Yields rest ts' ∧ TellsBy readBlockKey ⟨ts, e, later, handles⟩
      (propertyEvents properties ++ [.mappingEnd]) (leave ⟨ts', e, later, handles⟩) := by
  induction properties generalizing ts e with
  | nil =>
    rw [propertyTokens] at h
    obtain ⟨ts', hshows, hpeek⟩ := exists_peek h
    refine ⟨ts'.drop, hshows.2, ?_⟩
    rw [propertyEvents]
    exact ⟨_, by simp only [readBlockKey, hpeek, ok_bind]; rfl, rfl⟩
  | cons property more ih =>
    obtain ⟨hvalue, hmore⟩ := List.forall_mem_cons.1 hvalues
    obtain ⟨name, value⟩ := property
    -- behind a property comes a key or the end, so an array there has no further item
    obtain ⟨t, others, hbehind, hne⟩ : ∃ t others,
        propertyTokens more ++ .blockEnd :: rest = t :: others ∧ t ≠ .blockEntry := by
      cases more with
      | nil => exact ⟨_, _, by rw [propertyTokens]; rfl, by simp⟩
      | cons next more => exact ⟨_, _, by rw [propertyTokens_cons]; rfl, by simp⟩
    rw [propertyTokens_cons] at h
    simp only [List.cons_append, List.append_assoc, hbehind] at h
    obtain ⟨ts₁, hyields, htold⟩ := tells_property hvalue e later handles hne h
    obtain ⟨ts₂, hleft, hrest⟩ := ih hmore (by rw [hbehind]; exact hyields) (e := .blockKey false)
    refine ⟨ts₂, hleft, ?_⟩
    rw [propertyEvents, List.cons_append, List.append_assoc]
    have hsame : next ⟨ts₁, .blockKey false, later, handles⟩ =
        readBlockKey ⟨ts₁, .blockKey false, later, handles⟩ := rfl
    exact htold.append (hrest.of_eq hsame).tells

/-- An object where a node is expected. -/
theorem tellsHere_properties {property : String × Tree} {more : Properties Tree}
    (hvalues : ∀ x ∈ property :: more, TellsHere x.2 ∧ TellsLevel x.2) :
    TellsHere (.object (property :: more)) := by
  intro rest ts level e later handles h
  have htokens : tokensOf (.object (property :: more)) ++ rest =
      .blockMappingStart :: (propertyTokens (property :: more) ++ .blockEnd :: rest) := by
    simp [tokensOf]
  rw [htokens] at h
  obtain ⟨ts₁, hshows, hread⟩ := exists_readNode h (.inl .blockMappingStart)
  obtain ⟨ts₂, hleft, htold⟩ := tells_properties hvalues hshows.2 (e := .blockKey true)
  refine ⟨ts₂, hleft, ?_⟩
  rw [eventsOf]
  refine ⟨_, hread e later handles, (htold.of_eq ?_).tells⟩
  simp [next, skipStart, hshows.peek_eq, drop]

/-! ## All values -/

/-- The tokens of every value are told as the value's events. -/
theorem tells (value : Tree) : TellsHere value ∧ TellsLevel value := by
  induction value using Tree.induct with
  | scalar value =>
    have hscalar : TellsHere (.scalar value) := tellsHere_scalar value
    exact ⟨hscalar, hscalar.level rfl⟩
  | array items ih =>
    -- an empty collection is written in brackets, and has no level
    cases items with
    | nil =>
      have hempty : TellsHere (.array []) := tellsHere_empty .array rfl rfl
      exact ⟨hempty, hempty.level rfl⟩
    | cons item more =>
      have hitems : ∀ x ∈ item :: more, TellsHere x := fun x hx => (ih x hx).1
      exact ⟨tellsHere_items hitems, tellsLevel_items hitems⟩
  | object properties ih =>
    cases properties with
    | nil =>
      have hempty : TellsHere (.object []) := tellsHere_empty .object rfl rfl
      exact ⟨hempty, hempty.level rfl⟩
    | cons property more =>
      have hproperties : TellsHere (.object (property :: more)) := tellsHere_properties ih
      exact ⟨hproperties, hproperties.level rfl⟩

end EventStream

end PartialResponse.Yaml
