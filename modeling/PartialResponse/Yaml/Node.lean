import PartialResponse.Tree.Properties
import PartialResponse.Yaml.Event

/-!
# PartialResponse.Yaml.Node — the nodes of a document

The events of a document are put together to its nodes. Anchors have numbers
here, so that an alias can stand for a node that is not complete yet: the number
of an anchor is how many anchor names have been given before it. A name that is
given again makes no new name, so a later anchor may get a number once more; all
aliases with that number then stand for the node that starts last.
-/

namespace PartialResponse.Yaml

/-- A node of a document. -/
inductive Node where
  /-- The node that has the anchor of this number. -/
  | alias (number : Nat)
  | scalar (tag : Option Tag) (text : String) (plain : Bool)
  | sequence (tag : Option Tag) (items : List Node)
  | mapping (tag : Option Tag) (pairs : List (Node × Node))

namespace Node

/-- The node that stands for nothing. -/
def empty : Node := scalar none "" true

/-- Nodes two by two, as keys and values. -/
def pairUp : List Node → List (Node × Node)
  | key :: value :: rest => (key, value) :: pairUp rest
  | _ => []

end Node

/-- A document with its anchored nodes. -/
structure NodeGraph where
  root : Node
  /-- The anchored nodes by number, those that start later first. -/
  anchored : List (Nat × Node)
  /-- How many events the document consists of. -/
  events : Nat

/-- A collection that is not complete. -/
structure OpenNode where
  isMapping : Bool
  tag : Option Tag
  number : Option Nat
  /-- The nodes read so far, the last one first. -/
  parts : List Node
  /-- The anchored nodes inside it. -/
  anchored : List (Nat × Node)

/-- What has been read of a document. -/
structure Composition where
  /-- The anchor names given so far, with their numbers. -/
  numbers : Properties Nat
  /-- The collections that are not complete, the innermost first. -/
  outer : List OpenNode
  /-- The node of the document, once it is complete, with the anchored nodes. -/
  root : Option (Node × List (Nat × Node))
  events : Nat

namespace Composition

/-- Nothing has been read. -/
def empty : Composition := ⟨[], [], none, 0⟩

/-- Gives an anchor its number. -/
def number (c : Composition) : Option String → Option Nat × Composition
  | none => (none, c)
  | some name =>
    let n := c.numbers.length
    (some n, { c with numbers := Properties.set c.numbers name n })

/-- Puts a complete node into the collection around it. -/
def complete (c : Composition) (number : Option Nat) (node : Node)
    (inside : List (Nat × Node)) : Composition :=
  let anchored := inside ++ (number.map fun n => (n, node)).toList
  match c.outer with
  | [] => { c with root := some (node, anchored) }
  | o :: more =>
    { c with outer := { o with parts := node :: o.parts, anchored := anchored ++ o.anchored } :: more }

/-- Starts a collection. -/
def openNode (c : Composition) (isMapping : Bool) (marks : Marks) : Composition :=
  let (number, c) := c.number marks.anchor
  { c with outer := ⟨isMapping, marks.tag, number, [], []⟩ :: c.outer }

/-- Completes the innermost collection. -/
def closeNode (c : Composition) : Composition :=
  match c.outer with
  | [] => c
  | o :: more =>
    let parts := o.parts.reverse
    let node := if o.isMapping then .mapping o.tag (Node.pairUp parts) else .sequence o.tag parts
    { c with outer := more }.complete o.number node o.anchored

/-- Adds an event of the document. -/
def add (c : Composition) (event : Event) : Except Fault Composition :=
  let counted := { c with events := c.events + 1 }
  match event with
  | .alias name =>
    match Properties.get? c.numbers name with
    | some n => .ok (counted.complete none (.alias n) [])
    | none => .error .unknownAlias
  | .scalar marks text plain =>
    let (number, c) := counted.number marks.anchor
    .ok (c.complete number (.scalar marks.tag text plain) [])
  | .sequenceStart marks => .ok (counted.openNode false marks)
  | .mappingStart marks => .ok (counted.openNode true marks)
  | .sequenceEnd => .ok counted.closeNode
  | .mappingEnd => .ok counted.closeNode
  | _ => .ok c

/-- The document, once its node is complete. -/
def graph? (c : Composition) : Option NodeGraph :=
  c.root.map fun (root, anchored) => ⟨root, anchored, c.events⟩

end Composition

namespace NodeGraph

/-- The document of a text without any: nothing. -/
def empty : NodeGraph := ⟨.empty, [], 1⟩

/-- Reads a document, if there is one more. The first argument bounds its events. -/
def readNext : Nat → EventStream → Composition → Except Fault (Option NodeGraph × EventStream)
  | 0, s, _ => .ok (none, s)
  | rounds + 1, s, c => do
    let (event, s) ← s.next
    match event with
    | .streamEnd => .ok (none, s)
    | .documentEnd => .ok (c.graph?, s)
    | _ => readNext rounds s (← c.add event)

/-- Reads the documents that are left, of which the first argument bounds the number. A fault ends
the list. -/
def readAll (events : Nat) : Nat → EventStream → List (Except Fault NodeGraph)
  | 0, _ => []
  | rounds + 1, s =>
    match readNext events s .empty with
    | .error fault => [.error fault]
    | .ok (none, _) => []
    | .ok (some graph, s) => .ok graph :: readAll events rounds s

/-- The documents of a text in order, up to the first one that is faulty. A text has at least one
document. No character makes more than a few events. -/
def ofText (text : List Char) : List (Except Fault NodeGraph) :=
  match readAll (64 * text.length + 64) (text.length + 1) (.start text) with
  | [] => [.ok empty]
  | documents => documents

/-- The node that a node stands for, if it is an alias. The state counts the aliases that have been
followed; that happens at most a hundred times for each event of the document. -/
def target (g : NodeGraph) : Node → StateT Nat (Except Fault) Node
  | .alias number => do
    let followed ← get
    if g.events * 100 < followed + 1 then throw .tooManyAliases
    else
      set (followed + 1)
      match g.anchored.lookup number with
      | some node => pure node
      | none => throw .unknownAlias
  | node => pure node

end NodeGraph

end PartialResponse.Yaml
