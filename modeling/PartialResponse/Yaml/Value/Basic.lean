import PartialResponse.Yaml.Node
import PartialResponse.Yaml.Schema

/-!
# PartialResponse.Yaml.Value.Basic — the values of YAML documents

What the nodes of a document stand for once aliases are followed and scalars are
resolved. Mapping keys may be any values here, and a value may carry a tag of
its own.
-/

namespace PartialResponse.Yaml

/-- A value of a YAML document. -/
inductive Value where
  | scalar (value : Scalar)
  | nonFinite (value : NonFinite)
  | sequence (items : List Value)
  | mapping (entries : List (Value × Value))
  | tagged (tag : String) (content : Value)

namespace Value

/-- The value that is a string. -/
def ofString (s : String) : Value := scalar (.string s)

/-! ## Equality

Two mappings count as equal whatever the order of their entries.
-/

mutual

/-- Whether two values count as equal. -/
def same : Value → Value → Bool
  | scalar a, scalar b => a.same b
  | nonFinite x, nonFinite y => x == y
  | sequence as, sequence bs => sameItems as bs
  | mapping es, mapping fs => es.length == fs.length && sameEntries es fs
  | tagged s a, tagged t b => s == t && same a b
  | _, _ => false

/-- Whether two lists of items are equal item by item. -/
def sameItems : List Value → List Value → Bool
  | [], [] => true
  | a :: as, b :: bs => same a b && sameItems as bs
  | _, _ => false

/-- Whether each of the entries is found among the others. -/
def sameEntries : List (Value × Value) → List (Value × Value) → Bool
  | [], _ => true
  | (key, value) :: rest, others =>
    others.any (fun (k, v) => same key k && same value v) && sameEntries rest others

end

/-- Whether a key is among the entries. -/
def hasKey (key : Value) (entries : List (Value × Value)) : Bool :=
  entries.any fun (k, _) => key.same k

/-! ## Values of nodes -/

/-- The value of an atom. -/
def ofAtom : Atom → Except Fault Value
  | .finite value => .ok (scalar value)
  | .nonFinite value => .ok (nonFinite value)
  | .oversized => .error .integerTooLarge

/-- The value of an atom that a text has to mean because of its tag. -/
def ofFitting (atom : Option Atom) : Except Fault Value :=
  match atom with
  | some atom => ofAtom atom
  | none => .error .unfitTag

/-- What a scalar stands for. The tag of a type decides even if the scalar has quotes. Otherwise a
plain one is resolved, unless it has a tag that is not its own. -/
def ofScalar (tag : Option Tag) (text : String) (plain : Bool) : Except Fault Value :=
  match tag with
  | some .truth => ofFitting ((Schema.bool? text).map fun b => .finite (.bool b))
  | some .integer => ofFitting ((Schema.integer? text.toList).bind Schema.integerAtom?)
  | some .float => ofFitting (Schema.float? text)
  | some .null =>
    ofFitting (if text ≠ "" ∧ Schema.isNull text then some (.finite .null) else none)
  | some .foreign => .ok (ofString text)
  | _ => if plain then ofAtom (Schema.resolve text) else .ok (ofString text)

/-- Adds an entry to a mapping. A key that is there already is a fault. -/
def addEntry (entries : List (Value × Value)) (key value : Value) :
    Except Fault (List (Value × Value)) :=
  if hasKey key entries then .error .repeatedKey else .ok (entries ++ [(key, value)])

/-- How many collections may lie around a scalar. -/
def maxDepth : Nat := 128

/-- Puts a value under the tag of its node, if that is the value's own. -/
def underTag (tag : Option Tag) (value : Value) : Value :=
  match tag.bind Tag.ownName? with
  | some name => tagged name value
  | none => value

/-- The value of a node inside which collections may be nested `depth` times. -/
def ofNode (g : NodeGraph) (depth : Nat) (node : Node) : StateT Nat (Except Fault) Value := do
  match depth, ← g.target node with
  | _, .alias _ => throw .unknownAlias
  | _, .scalar tag text plain => return underTag tag (← ofScalar tag text plain)
  | 0, _ => throw .tooDeep
  | depth + 1, .sequence tag items =>
    return underTag tag (sequence (← items.mapM (ofNode g depth)))
  | depth + 1, .mapping tag pairs =>
    let entries ← pairs.foldlM (fun entries (key, value) => do
      addEntry entries (← ofNode g depth key) (← ofNode g depth value)) []
    return underTag tag (mapping entries)

/-- The value of a document. -/
def ofGraph (g : NodeGraph) : Except Fault Value :=
  (·.1) <$> (ofNode g maxDepth g.root).run 0

end Value

end PartialResponse.Yaml
