import PartialResponse.Proofs.Yaml.Events
import PartialResponse.Proofs.Yaml.Texts
import PartialResponse.Yaml.Node

/-!
# PartialResponse.Proofs.Yaml.Nodes — the nodes of a written text

The events of a tree are put together to one node without anchors and tags, and a
text of documents is read as one such node for each of its values. The reader bounds
its rounds by the length of the text, which is enough since every node takes
characters.
-/

namespace PartialResponse.Yaml

/-! ## Nodes of a tree -/

mutual

/-- The node of a value. -/
def nodeOf : Tree → Node
  | .scalar value => .scalar none (shownText value) (showsPlain value)
  | .array items => .sequence none (nodesOf items)
  | .object properties => .mapping none (pairsOf properties)

/-- The nodes of items. -/
def nodesOf : List Tree → List Node
  | [] => []
  | item :: rest => nodeOf item :: nodesOf rest

/-- The nodes of properties. -/
def pairsOf : Properties Tree → List (Node × Node)
  | [] => []
  | (name, value) :: rest =>
    (.scalar none name (styleOf name == .plain), nodeOf value) :: pairsOf rest

end

/-- The keys and values of pairs one after the other. -/
def partsOf : List (Node × Node) → List Node
  | [] => []
  | (key, value) :: rest => key :: value :: partsOf rest

/-- Keys and values that come in turn are paired up again. -/
@[simp]
theorem pairUp_partsOf (pairs : List (Node × Node)) : Node.pairUp (partsOf pairs) = pairs := by
  induction pairs with
  | nil => rfl
  | cons pair rest ih =>
    obtain ⟨key, value⟩ := pair
    rw [partsOf, Node.pairUp, ih]

namespace Composition

/-- Adds events one after the other. -/
def addAll (c : Composition) (told : List Event) : Except Fault Composition :=
  told.foldlM add c

/-- The first event is added first. -/
theorem addAll_cons {c c' : Composition} {event : Event} (h : c.add event = .ok c') (more : List Event) :
    c.addAll (event :: more) = c'.addAll more := by
  rw [addAll, List.foldlM_cons, h, ok_bind, addAll]

/-- Events are added in two goes. -/
theorem addAll_append {c c' : Composition} {first : List Event} (h : c.addAll first = .ok c')
    (more : List Event) : c.addAll (first ++ more) = c'.addAll more := by
  rw [addAll] at h
  rw [addAll, List.foldlM_append, h, ok_bind, addAll]

/-- More events have been counted. -/
def counting (c : Composition) (n : Nat) : Composition :=
  { c with events := c.events + n }

/-- A node without an anchor is complete, and no anchored node lies in it. -/
def puts (c : Composition) (node : Node) : Composition :=
  c.complete none node []

/-- Nodes have been put into the innermost collection. -/
def putsAll (c : Composition) : List Node → Composition
  | [] => c
  | node :: more => (c.puts node).putsAll more

/-- Whether a value is put together from its events. -/
def Composes (value : Tree) : Prop :=
  ∀ c : Composition, c.addAll (eventsOf value) = .ok ((c.counting (eventsOf value).length).puts (nodeOf value))

/-- A collection that has started. -/
def inside (c : Composition) (isMapping : Bool) : Composition :=
  { c with outer := ⟨isMapping, none, none, [], []⟩ :: c.outer }

/-- The count of events and the nodes do not get in each other's way. -/
theorem puts_counting (c : Composition) (n : Nat) (node : Node) :
    (c.puts node).counting n = (c.counting n).puts node := by
  unfold puts complete counting
  cases c.outer <;> rfl

@[simp]
theorem counting_counting (c : Composition) (m n : Nat) :
    (c.counting m).counting n = c.counting (m + n) := by
  simp [counting, Nat.add_assoc]

theorem putsAll_counting (c : Composition) (n : Nat) (nodes : List Node) :
    (c.putsAll nodes).counting n = (c.counting n).putsAll nodes := by
  induction nodes generalizing c with
  | nil => rfl
  | cons node more ih => rw [putsAll, ih, puts_counting, putsAll]

/-- What is put into an open collection becomes its parts. -/
theorem putsAll_inside (c : Composition) (isMapping : Bool) (parts nodes : List Node) :
    putsAll { c with outer := ⟨isMapping, none, none, parts, []⟩ :: c.outer } nodes =
      { c with outer := ⟨isMapping, none, none, nodes.reverse ++ parts, []⟩ :: c.outer } := by
  -- an open collection keeps its parts backwards
  induction nodes generalizing parts with
  | nil => rfl
  | cons node more ih =>
    have hputs : puts { c with outer := ⟨isMapping, none, none, parts, []⟩ :: c.outer } node =
        { c with outer := ⟨isMapping, none, none, node :: parts, []⟩ :: c.outer } := rfl
    rw [putsAll, hputs, ih]
    simp

/-- A collection ends. -/
theorem closeNode_putsAll (c : Composition) (isMapping : Bool) (nodes : List Node) :
    ((c.inside isMapping).putsAll nodes).closeNode =
      c.puts (if isMapping then .mapping none (Node.pairUp nodes) else .sequence none nodes) := by
  rw [inside, putsAll_inside]
  simp [closeNode, puts, complete]

/-- The items of a sequence are put into it one by one. -/
theorem composes_items {items : List Tree} (hitems : ∀ item ∈ items, Composes item) (c : Composition) :
    c.addAll (itemEvents items) = .ok ((c.counting (itemEvents items).length).putsAll (nodesOf items)) := by
  induction items generalizing c with
  | nil => simp [itemEvents, nodesOf, addAll, putsAll, counting]; rfl
  | cons item more ih =>
    obtain ⟨hitem, hmore⟩ := List.forall_mem_cons.1 hitems
    rw [itemEvents, addAll_append (hitem c), ih hmore, nodesOf, putsAll, puts_counting, counting_counting,
      List.length_append]

/-- A scalar is a node of its own. -/
theorem composes_scalar (value : Scalar) : Composes (.scalar value) := by
  intro c
  have hadd : c.add (.scalar unmarked (shownText value) (showsPlain value)) =
      .ok ((c.counting 1).puts (nodeOf (.scalar value))) := by
    rw [nodeOf]
    rfl
  rw [eventsOf, addAll_cons hadd]
  rfl

/-- The properties of a mapping are put into it as a key and a value each. -/
theorem composes_properties {properties : Properties Tree}
    (hvalues : ∀ property ∈ properties, Composes property.2) (c : Composition) :
    c.addAll (propertyEvents properties) =
      .ok ((c.counting (propertyEvents properties).length).putsAll (partsOf (pairsOf properties))) := by
  induction properties generalizing c with
  | nil => simp [propertyEvents, pairsOf, partsOf, addAll, putsAll, counting]; rfl
  | cons property more ih =>
    obtain ⟨hvalue, hmore⟩ := List.forall_mem_cons.1 hvalues
    obtain ⟨name, value⟩ := property
    have hkey : c.add (.scalar unmarked name (styleOf name == .plain)) =
        .ok ((c.counting 1).puts (.scalar none name (styleOf name == .plain))) := rfl
    rw [propertyEvents, addAll_cons hkey, addAll_append (hvalue _), ih hmore, pairsOf, partsOf, putsAll,
      putsAll, List.length_cons, List.length_append]
    simp only [puts_counting, counting_counting]
    -- both count the key as well
    congr 5
    omega

/-- A collection without an anchor becomes a node when its last event is added. -/
theorem composes_collection {isMapping : Bool} {start stop : Event} {inner : List Event} {nodes : List Node}
    (c : Composition) (hstart : c.add start = .ok ((c.counting 1).inside isMapping))
    (hinner : ∀ c : Composition, c.addAll inner = .ok ((c.counting inner.length).putsAll nodes))
    (hstop : ∀ c : Composition, c.add stop = .ok (c.counting 1).closeNode) :
    c.addAll (start :: (inner ++ [stop])) = .ok ((c.counting (inner.length + 2)).puts
      (if isMapping then .mapping none (Node.pairUp nodes) else .sequence none nodes)) := by
  rw [addAll_cons hstart, addAll_append (hinner _), addAll_cons (hstop _), putsAll_counting]
  have hinside : ∀ m, ((c.counting 1).inside isMapping).counting m = (c.counting (1 + m)).inside isMapping :=
    fun m => congrArg (inside · isMapping) (counting_counting c 1 m)
  rw [counting_counting, hinside, closeNode_putsAll, show 1 + (inner.length + 1) = inner.length + 2 by omega]
  rfl

/-- Every value is put together from its events. -/
theorem composes (value : Tree) : Composes value := by
  induction value using Tree.induct with
  | scalar value => exact composes_scalar value
  | array items ih =>
    intro c
    have hall := @composes_collection false (.sequenceStart unmarked) .sequenceEnd (itemEvents items)
      (nodesOf items) c rfl (composes_items ih) (fun _ => rfl)
    rw [eventsOf, nodeOf]
    simpa using hall
  | object properties ih =>
    intro c
    have hall := @composes_collection true (.mappingStart unmarked) .mappingEnd (propertyEvents properties)
      (partsOf (pairsOf properties)) c rfl (composes_properties ih) (fun _ => rfl)
    rw [eventsOf, nodeOf]
    simpa [pairUp_partsOf] using hall

end Composition

/-! ## How many events there are -/

theorem one_le_length {t : List Char} (h : StartsToken t) : 1 ≤ t.length := by
  obtain ⟨x, more, rfl, -⟩ := h
  simp

/-- Whether a value's events are not many more than the characters it is written with. -/
def FewEvents (value : Tree) : Prop :=
  (∀ indent inner, (eventsOf value).length ≤ 3 * (writeHere indent inner value).length) ∧
    ∀ indent, (eventsOf value).length ≤ 3 * (writeBehindKey indent value).length

/-- The mark of each item leaves room for two events more. -/
theorem length_itemEvents_le {items : List Tree} (hitems : ∀ item ∈ items, FewEvents item)
    (lead : List Char) (indent : Nat) :
    (itemEvents items).length + 2 * items.length ≤ 3 * (writeItems lead indent items).length := by
  induction items generalizing lead with
  | nil => simp [itemEvents]
  | cons item more ih =>
    obtain ⟨hitem, hmore⟩ := List.forall_mem_cons.1 hitems
    have hrest := ih hmore (spaces indent)
    have hhere := hitem.1 (indent + 2) (indent + 2)
    simp only [itemEvents, writeItems, List.length_append, List.length_cons]
    omega

/-- The mark of each property leaves room for two events more. -/
theorem length_propertyEvents_le {properties : Properties Tree}
    (hvalues : ∀ property ∈ properties, FewEvents property.2) (lead : List Char) (indent : Nat) :
    (propertyEvents properties).length + 2 * properties.length ≤
      3 * (writeProperties lead indent properties).length := by
  induction properties generalizing lead with
  | nil => simp [propertyEvents]
  | cons property more ih =>
    obtain ⟨hvalue, hmore⟩ := List.forall_mem_cons.1 hvalues
    obtain ⟨name, value⟩ := property
    have hrest := ih hmore (spaces indent)
    obtain ⟨hhere, hbehind⟩ : FewEvents value := hvalue
    have hhere := hhere (indent + 2) (indent + 2)
    have hbehind := hbehind indent
    simp only [propertyEvents, writeProperties, List.length_append, List.length_cons]
    split <;> simp only [List.length_append, List.length_cons] <;> omega

/-- No value has more than three events for each character. -/
theorem fewEvents (value : Tree) : FewEvents value := by
  induction value using Tree.induct with
  | scalar value =>
    have hone : (eventsOf (.scalar value)).length = 1 := by simp [eventsOf]
    constructor
    · intro indent inner
      have hlength := one_le_length (startsToken_writeHere indent inner (.scalar value))
      omega
    · intro indent
      obtain ⟨y, more, hbehind, -⟩ := exists_writeBehindKey indent (.scalar value)
      rw [hbehind, List.length_cons]
      omega
  | array items ih =>
    cases items with
    | nil => exact ⟨fun _ _ => by simp [eventsOf, itemEvents, writeHere],
        fun _ => by simp [eventsOf, itemEvents, writeBehindKey]⟩
    | cons item more =>
      -- an array has two events of its own, for which the marks of its items leave room
      have hall : ∀ lead indent, (eventsOf (.array (item :: more))).length ≤
          3 * (writeItems lead indent (item :: more)).length := by
        intro lead indent
        have hitems := length_itemEvents_le ih lead indent
        simp only [List.length_cons] at hitems
        simp only [eventsOf, List.length_cons, List.length_append, List.length_nil]
        omega
      exact ⟨fun indent _ => by simpa [writeHere] using hall [] indent,
        fun indent => by simpa [writeBehindKey] using hall ('\n' :: spaces indent) indent⟩
  | object properties ih =>
    cases properties with
    | nil => exact ⟨fun _ _ => by simp [eventsOf, propertyEvents, writeHere],
        fun _ => by simp [eventsOf, propertyEvents, writeBehindKey]⟩
    | cons property more =>
      have hall : ∀ lead indent, (eventsOf (.object (property :: more))).length ≤
          3 * (writeProperties lead indent (property :: more)).length := by
        intro lead indent
        have hproperties := length_propertyEvents_le ih lead indent
        simp only [List.length_cons] at hproperties
        simp only [eventsOf, List.length_cons, List.length_append, List.length_nil]
        omega
      exact ⟨fun indent _ => by simpa [writeHere] using hall [] indent,
        fun indent => by simpa [writeBehindKey] using hall ('\n' :: spaces (indent + 2)) (indent + 2)⟩

/-! ## Documents -/

namespace NodeGraph

open EventStream
open TokenStream (Yields)

/-- Whether an event lies between the start and the end of a document. -/
def IsInner (event : Event) : Prop :=
  event ≠ .streamEnd ∧ event ≠ .documentEnd

/-- The events of items end neither a document nor the text. -/
theorem isInner_itemEvents {items : List Tree}
    (hitems : ∀ item ∈ items, ∀ event ∈ eventsOf item, IsInner event) :
    ∀ event ∈ itemEvents items, IsInner event := by
  induction items with
  | nil => simp [itemEvents]
  | cons item more ih =>
    obtain ⟨hitem, hmore⟩ := List.forall_mem_cons.1 hitems
    rw [itemEvents, List.forall_mem_append]
    exact ⟨hitem, ih hmore⟩

/-- The events of properties end neither a document nor the text. -/
theorem isInner_propertyEvents {properties : Properties Tree}
    (hvalues : ∀ property ∈ properties, ∀ event ∈ eventsOf property.2, IsInner event) :
    ∀ event ∈ propertyEvents properties, IsInner event := by
  induction properties with
  | nil => simp [propertyEvents]
  | cons property more ih =>
    obtain ⟨hvalue, hmore⟩ := List.forall_mem_cons.1 hvalues
    rw [propertyEvents, List.forall_mem_cons, List.forall_mem_append]
    exact ⟨⟨by simp, by simp⟩, hvalue, ih hmore⟩

/-- The events of a value end neither a document nor the text. -/
theorem isInner_eventsOf (value : Tree) : ∀ event ∈ eventsOf value, IsInner event := by
  induction value using Tree.induct with
  | scalar value => simp [eventsOf, IsInner]
  | array items ih =>
    have hitems := isInner_itemEvents ih
    rw [eventsOf, List.forall_mem_cons, List.forall_mem_append]
    exact ⟨⟨by simp, by simp⟩, hitems, by simp [IsInner]⟩
  | object properties ih =>
    have hproperties := isInner_propertyEvents ih
    rw [eventsOf, List.forall_mem_cons, List.forall_mem_append]
    exact ⟨⟨by simp, by simp⟩, hproperties, by simp [IsInner]⟩

/-- Events are added to the document as they are told. -/
theorem readNext_tells {s s' : EventStream} {told : List Event} {c c' : Composition} (htold : Tells s told s')
    (hadd : c.addAll told = .ok c') (hinner : ∀ event ∈ told, IsInner event) (rounds : Nat) :
    readNext (rounds + told.length) s c = readNext rounds s' c' := by
  -- one round for each event, as none of them ends the document
  induction told generalizing s c with
  | nil =>
    obtain rfl : s = s' := htold
    obtain rfl : c = c' := by simpa [Composition.addAll, pure, Except.pure] using hadd
    rfl
  | cons event more ih =>
    obtain ⟨m, hnext, hmore⟩ := htold
    obtain ⟨hevent, hinner⟩ := List.forall_mem_cons.1 hinner
    cases hc : c.add event with
    | error fault => simp [Composition.addAll, hc] at hadd
    | ok d =>
      rw [Composition.addAll_cons hc] at hadd
      have hrounds : rounds + (event :: more).length = rounds + more.length + 1 := rfl
      rw [hrounds, readNext, hnext, ok_bind]
      have hrest := ih hmore hadd hinner
      cases event with
      | streamEnd => exact absurd rfl hevent.1
      | documentEnd => exact absurd rfl hevent.2
      | _ => simp only [hc, ok_bind, hrest]

/-- The document of a value. -/
def ofTree (value : Tree) : NodeGraph :=
  ⟨nodeOf value, [], (eventsOf value).length⟩

variable {t : Token} {rest : List Token} {ts : TokenStream}

/-- The first document. -/
theorem tells_first {value : Tree} (h : Yields (tokensOf value ++ rest) ts) :
    ∃ ts', Yields rest ts' ∧ Tells ⟨ts, .document true, [], []⟩ (.documentStart :: eventsOf value)
      ⟨ts', .documentEnd, [], defaultHandles⟩ := by
  obtain ⟨t, ts₁, hstart, hyields, hpeek⟩ := exists_peek_tokensOf h
  obtain ⟨ts₂, hrest, htold⟩ := (tells value).1 false .node [.documentEnd] defaultHandles hyields
  have hsame : next ⟨ts₁, .node, [.documentEnd], defaultHandles⟩ =
      readNode true false ⟨ts₁, .node, [.documentEnd], defaultHandles⟩ := rfl
  refine ⟨ts₂, hrest, _, ?_, (htold.of_eq hsame).tells⟩
  have hend : t ≠ .streamEnd := by cases hstart <;> simp
  simp [next, readDocumentStart, hpeek, hend, hstart.not_isDocumentToken, andThen]

/-- A further document, with the marker in front of it. -/
theorem tells_further {value : Tree} (h : Yields (.documentStart :: (tokensOf value ++ rest)) ts) :
    ∃ ts', Yields rest ts' ∧ Tells ⟨ts, .document false, [], []⟩ (.documentStart :: eventsOf value)
      ⟨ts', .documentEnd, [], defaultHandles⟩ := by
  obtain ⟨ts₁, hshows₁, hpeek₁⟩ := exists_peek h
  obtain ⟨t, ts₂, hstart, hyields₂, hpeek₂⟩ := exists_peek_tokensOf hshows₁.2
  obtain ⟨ts₃, hrest, htold⟩ := (tells value).1 false .content [.documentEnd] defaultHandles hyields₂
  have hsame : next ⟨ts₁.drop, .content, [.documentEnd], defaultHandles⟩ =
      readNode true false ⟨ts₂, .content, [.documentEnd], defaultHandles⟩ := by
    simp [next, hpeek₂, hstart.not_isDocumentToken]
  refine ⟨ts₃, hrest, _, ?_, (htold.of_eq hsame).tells⟩
  simp [next, readDocumentStart, bound, skipEndMarkers, readDirectives, hpeek₁, hshows₁.peek_eq, andThen, drop]

/-- A document up to what comes behind it. -/
theorem readNext_document {value : Tree} {s : EventStream} {handles : List (String × List UInt8)} {rounds : Nat}
    (htold : Tells s (.documentStart :: eventsOf value) ⟨ts, .documentEnd, [], handles⟩)
    (hbehind : Yields (t :: rest) ts) (hne : t ≠ .documentEnd)
    (hrounds : (eventsOf value).length + 2 ≤ rounds) :
    ∃ ts', Yields (t :: rest) ts' ∧ readNext rounds s .empty =
      .ok (some (ofTree value), ⟨ts', .document false, [], []⟩) := by
  obtain ⟨ts', hshows, hpeek⟩ := exists_peek hbehind
  obtain ⟨more, rfl⟩ : ∃ more, rounds = more + 1 + (.documentStart :: eventsOf value).length :=
    ⟨rounds - (eventsOf value).length - 2, by rw [List.length_cons]; omega⟩
  -- the start of a document is not counted
  have hadd : Composition.empty.addAll (.documentStart :: eventsOf value) =
      .ok ((Composition.empty.counting (eventsOf value).length).puts (nodeOf value)) := by
    have hstart : Composition.empty.add .documentStart = .ok .empty := rfl
    rw [Composition.addAll_cons hstart, Composition.composes]
  have hinner : ∀ event ∈ Event.documentStart :: eventsOf value, IsInner event :=
    List.forall_mem_cons.2 ⟨⟨by simp, by simp⟩, isInner_eventsOf value⟩
  refine ⟨ts', hshows.yields, ?_⟩
  rw [readNext_tells htold hadd hinner, readNext]
  simp [next, hpeek, hne, Composition.graph?, Composition.puts, Composition.complete, Composition.counting,
    Composition.empty, ofTree]

/-- At the end of the text there is no document. -/
theorem readNext_end {rounds : Nat} {c : Composition} (h : Yields [.streamEnd] ts) :
    ∃ s, readNext (rounds + 1) ⟨ts, .document false, [], []⟩ c = .ok (none, s) := by
  obtain ⟨ts', hshows, hpeek⟩ := exists_peek h
  refine ⟨⟨ts'.drop, .nothing, [], []⟩, ?_⟩
  simp [readNext, next, readDocumentStart, bound, skipEndMarkers, hpeek, hshows.peek_eq, drop]

/-- Behind a document comes a marker that starts another one, or the end, but no end marker. -/
theorem exists_documentTokens (values : List Tree) :
    ∃ t rest, documentTokens values = t :: rest ∧ t ≠ .documentEnd := by
  cases values with
  | nil => exact ⟨_, _, rfl, by simp⟩
  | cons value more => exact ⟨_, _, rfl, by simp⟩

/-- The documents behind the first one. -/
theorem readAll_documents {rounds n : Nat} {values : List Tree}
    (hfew : ∀ value ∈ values, (eventsOf value).length + 2 ≤ n) (hn : 1 ≤ n) (hrounds : values.length ≤ rounds)
    (h : Yields (documentTokens values) ts) :
    readAll n rounds ⟨ts, .document false, [], []⟩ = values.map fun value => .ok (ofTree value) := by
  -- a round for each document, and one to find the end
  induction values generalizing rounds ts with
  | nil =>
    cases rounds with
    | zero => rfl
    | succ rounds =>
      obtain ⟨m, rfl⟩ : ∃ m, n = m + 1 := ⟨n - 1, by omega⟩
      obtain ⟨s, hread⟩ := @readNext_end ts m .empty h
      rw [readAll, hread]
      rfl
  | cons value more ih =>
    obtain ⟨hvalue, hmore⟩ := List.forall_mem_cons.1 hfew
    obtain ⟨rounds, rfl⟩ : ∃ m, rounds = m + 1 := ⟨rounds - 1, by rw [List.length_cons] at hrounds; omega⟩
    obtain ⟨t, rest, hbehind, hne⟩ := exists_documentTokens more
    obtain ⟨ts₁, hrest, htold⟩ := tells_further h
    rw [hbehind] at hrest
    obtain ⟨ts₂, hyields, hread⟩ := readNext_document htold hrest hne hvalue
    rw [← hbehind] at hyields
    rw [readAll, hread, List.map_cons]
    exact congrArg _ (ih hmore (by simpa using hrounds) hyields)

/-- A text of documents is at least as long as each of its values, and has a character for each
marker. -/
theorem length_writeYaml (value : Tree) (more : List Tree) :
    more.length ≤ (Document.writeYaml (value :: more)).length ∧
      ∀ x ∈ value :: more, (write x).length ≤ (Document.writeYaml (value :: more)).length := by
  rw [writeYaml_cons]
  have hall : more.length ≤ (documentsBehind more).length ∧
      ∀ x ∈ more, (write x).length ≤ (documentsBehind more).length := by
    clear value
    induction more with
    | nil => simp
    | cons value more ih =>
      simp only [documentsBehind, List.length_cons, List.length_append, List.mem_cons, forall_eq_or_imp]
      refine ⟨by omega, by omega, fun x hx => ?_⟩
      have := ih.2 x hx
      omega
  simp only [List.length_append, List.mem_cons, forall_eq_or_imp]
  refine ⟨by omega, by omega, fun x hx => ?_⟩
  have := hall.2 x hx
  omega

/-- The text of documents is read as the nodes of its values. -/
theorem ofText_writeYaml (value : Tree) (more : List Tree) :
    ofText (Document.writeYaml (value :: more)) = (value :: more).map fun value => .ok (ofTree value) := by
  obtain ⟨hmany, hlong⟩ := length_writeYaml value more
  have hyields := yields_writeYaml value more
  generalize Document.writeYaml (value :: more) = text at hmany hlong hyields ⊢
  -- the bounds on rounds are generous
  have hfew : ∀ x ∈ value :: more, (eventsOf x).length + 2 ≤ 64 * text.length + 64 := by
    intro x hx
    have hlength := hlong x hx
    have hevents := (fewEvents x).1 0 2
    rw [write] at hlength
    omega
  obtain ⟨t, rest, hbehind, hne⟩ := exists_documentTokens more
  obtain ⟨ts₁, hrest, htold⟩ := tells_first hyields
  rw [hbehind] at hrest
  obtain ⟨hvalue, hmore⟩ := List.forall_mem_cons.1 hfew
  obtain ⟨ts₂, hyields₂, hread⟩ := readNext_document htold hrest hne hvalue
  rw [← hbehind] at hyields₂
  have hall : readAll (64 * text.length + 64) (text.length + 1) (.start text) =
      (value :: more).map fun value => .ok (ofTree value) := by
    have hrest := readAll_documents hmore (by omega) hmany hyields₂
    rw [readAll, EventStream.start, hread]
    dsimp only
    rw [hrest, List.map_cons]
  unfold ofText
  rw [hall]
  simp only [List.map_cons]

end NodeGraph

end PartialResponse.Yaml
