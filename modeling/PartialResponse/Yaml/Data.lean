import PartialResponse.Yaml.Value.Basic

/-!
# PartialResponse.Yaml.Data — YAML text as plain data

A text of one document can be read as a tree without the steps in between. Then
a scalar key is its own text, whatever its tag, and a repeated key takes the last
value; values with tags of their own, keys that are collections and numbers that
are not finite have no place. The key `<<` is a key like any other.
-/

namespace PartialResponse.Yaml.Data

/-- The property name that a key becomes. -/
def keyText (g : NodeGraph) (node : Node) : StateT Nat (Except Fault) String := do
  match ← g.target node with
  | .scalar _ text _ => return text
  | _ => throw .collectionKey

/-- The tree that a scalar becomes. -/
def ofScalar (tag : Option Tag) (text : String) (plain : Bool) : Except Fault Tree := do
  match ← Value.ofScalar tag text plain with
  | .scalar value => (Tree.visitor.scalar value).mapError .visiting
  | .nonFinite value => (Tree.visitor.float (.nonFinite value)).mapError .visiting
  | _ => .error .unexpectedTag

/-- The tag of a node that may not have one of its own. -/
def checkTag (tag : Option Tag) : Except Fault Unit :=
  if (tag.bind Tag.ownName?).isSome then .error .unexpectedTag else .ok ()

/-- The tree of a node inside which collections may be nested `depth` times. -/
def ofNode (g : NodeGraph) (depth : Nat) (node : Node) : StateT Nat (Except Fault) Tree := do
  match depth, ← g.target node with
  | _, .alias _ => throw .unknownAlias
  | _, .scalar tag text plain =>
    checkTag tag
    ofScalar tag text plain
  | 0, _ => throw .tooDeep
  | depth + 1, .sequence tag items =>
    checkTag tag
    return Tree.visitor.array (← items.mapM (ofNode g depth))
  | depth + 1, .mapping tag pairs =>
    checkTag tag
    return Tree.visitor.object (← pairs.foldlM (fun properties (key, value) => do
      let name ← keyText g key
      return Tree.visitor.insert properties name (← ofNode g depth value)) [])

/-- The tree of a text of one document. -/
def read (text : List Char) : Except Fault Tree := do
  match NodeGraph.ofText text with
  | [] => .error .expectedDocument
  | [graph] => (·.1) <$> (ofNode (← graph) Value.maxDepth (← graph).root).run 0
  | _ => .error .moreThanOne

end PartialResponse.Yaml.Data
