import PartialResponse.Number.Basic
import PartialResponse.Tree.Properties

/-!
# PartialResponse.Tree.Basic — document trees

The values that documents are made of: scalars, arrays, and objects whose
properties keep the order in which they were first written.
-/

namespace PartialResponse

/-- A value without parts. -/
inductive Scalar where
  | null
  | bool (value : Bool)
  | number (value : Number)
  | string (value : String)
deriving DecidableEq

/-- Whether two scalars count as equal. -/
def Scalar.same : Scalar → Scalar → Bool
  | .null, .null => true
  | .bool a, .bool b => a == b
  | .number a, .number b => a.same b
  | .string a, .string b => a == b
  | _, _ => false

/-- A document value. -/
inductive Tree where
  | scalar (value : Scalar)
  | array (items : List Tree)
  | object (properties : List (String × Tree))

namespace Tree

/-- The null value. -/
def null : Tree := scalar .null

/-- A truth value. -/
def ofBool (b : Bool) : Tree := scalar (.bool b)

/-- A text. -/
def ofString (s : String) : Tree := scalar (.string s)

/-- An integer, if it fits into 64 bits. -/
def ofInt? (n : Int) : Option Tree := (Number.ofInt? n).map fun x => scalar (.number x)

/-- An integer with a sign. -/
def ofInt64 (n : Int64) : Tree := scalar (.number (.ofInt64 n))

/-- What sort of value this is, in a word. -/
def kind : Tree → String
  | scalar .null => "null"
  | scalar (.bool _) => "bool"
  | scalar (.number _) => "number"
  | scalar (.string _) => "string"
  | array _ => "array"
  | object _ => "object"

/-- Whether this is the null value. -/
def isNull : Tree → Bool
  | scalar .null => true
  | _ => false

/-- Whether this is an object. -/
def isObject : Tree → Bool
  | object _ => true
  | _ => false

/-- Whether this is an array. -/
def isArray : Tree → Bool
  | array _ => true
  | _ => false

/-- Whether this is an object or an array. -/
def isContainer (t : Tree) : Bool :=
  t.isObject || t.isArray

/-- The properties of an object. -/
def properties? : Tree → Option (Properties Tree)
  | object properties => some properties
  | _ => none

/-- The items of an array. -/
def items? : Tree → Option (List Tree)
  | array items => some items
  | _ => none

/-- The value of a property of an object. -/
def get? : Tree → String → Option Tree
  | object properties, name => Properties.get? properties name
  | _, _ => none

/-- The number of properties or items; a scalar has none. -/
def size : Tree → Nat
  | scalar _ => 0
  | array items => items.length
  | object properties => properties.length

/-- Whether there are no properties and no items. -/
def isEmpty (t : Tree) : Bool :=
  t.size == 0

/-- A scalar other than null as plain text: a string without quotes. -/
def scalarText? (n : Binary64.Notation) : Tree → Option String
  | scalar (.bool b) => some (if b then "true" else "false")
  | scalar (.number x) => some (String.ofList (x.text n))
  | scalar (.string s) => some s
  | _ => none

/-! ## Equality

Two values are the same if they differ at most in the order of properties and
in the sign of a floating-point zero. -/

mutual

/-- Whether two values count as equal. -/
def same : Tree → Tree → Bool
  | scalar a, scalar b => a.same b
  | array as, array bs => sameItems as bs
  | object ps, object qs => ps.length == qs.length && sameProperties ps qs
  | _, _ => false

/-- Whether two lists of items are equal item by item. -/
def sameItems : List Tree → List Tree → Bool
  | [], [] => true
  | a :: as, b :: bs => same a b && sameItems as bs
  | _, _ => false

/-- Whether each of the properties is found among the others with an equal value. -/
def sameProperties : Properties Tree → Properties Tree → Bool
  | [], _ => true
  | (name, value) :: rest, others =>
    (match Properties.get? others name with
      | some other => same value other
      | none => false) && sameProperties rest others

end

/-! ## Well-formed values -/

mutual

/-- Whether no object of the value has two properties of one name. -/
def WellFormed : Tree → Prop
  | scalar _ => True
  | array items => WellFormedItems items
  | object properties => (Properties.names properties).Nodup ∧ WellFormedProperties properties

/-- Whether all items are well formed. -/
def WellFormedItems : List Tree → Prop
  | [] => True
  | item :: rest => WellFormed item ∧ WellFormedItems rest

/-- Whether the values of all properties are well formed. -/
def WellFormedProperties : Properties Tree → Prop
  | [] => True
  | (_, value) :: rest => WellFormed value ∧ WellFormedProperties rest

end

mutual

/-- How many containers lie around the innermost value. -/
def depth : Tree → Nat
  | scalar _ => 0
  | array items => depthItems items + 1
  | object properties => depthProperties properties + 1

/-- The greatest depth of an item. -/
def depthItems : List Tree → Nat
  | [] => 0
  | item :: rest => max (depth item) (depthItems rest)

/-- The greatest depth of a property's value. -/
def depthProperties : Properties Tree → Nat
  | [] => 0
  | (_, value) :: rest => max (depth value) (depthProperties rest)

end

end Tree

end PartialResponse
