import PartialResponse.Json.Parser
import PartialResponse.Json.Printer

/-!
# PartialResponse.Json.Value — JSON values as such

A JSON value by its six kinds, for callers that hold JSON and not documents. It
is read from text and written to text on its own, and it converts to a tree and
back without loss.
-/

namespace PartialResponse.Json

/-- A JSON value. -/
inductive Value where
  | null
  | bool (value : Bool)
  | number (value : Number)
  | string (value : String)
  | array (items : List Value)
  | object (properties : List (String × Value))

namespace Value

/-- The value of a scalar. -/
def ofScalar : Scalar → Value
  | .null => null
  | .bool b => bool b
  | .number n => number n
  | .string s => string s

/-- The value of a floating-point number. One that is not finite counts as null. -/
def visitFloat : Float64 → Value
  | .finite value => number (.float value)
  | .nonFinite _ => null

/-- Values are made by this visitor. Like a document's, its objects give a name that has been visited
before the new value in the old place. -/
def visitor : Visitor Value where
  unit := null
  bool := bool
  signed value := number (.ofInt64 value)
  unsigned value := number (.ofUInt64 value)
  float value := .ok (visitFloat value)
  string := string
  array := array
  insert := Properties.set
  object := object

/-- A scalar of a document is visited as itself. -/
@[simp]
theorem visitor_scalar (value : Scalar) : visitor.scalar value = .ok (ofScalar value) := by
  cases value with
  | number n => exact visitor.number_eq number (fun _ => rfl) (fun _ => rfl) (fun _ => rfl) n
  | _ => rfl

/-- The value that a JSON text stands for. -/
def parse? (text : List Char) : Option Value :=
  (Token.ofText? text).bind (ofTokens? visitor)

mutual

/-- The tree with the same parts. -/
def toTree : Value → Tree
  | null => .scalar .null
  | bool b => .scalar (.bool b)
  | number n => .scalar (.number n)
  | string s => .scalar (.string s)
  | array items => .array (itemsToTree items)
  | object properties => .object (propertiesToTree properties)

/-- The trees of the items of an array. -/
def itemsToTree : List Value → List Tree
  | [] => []
  | item :: rest => toTree item :: itemsToTree rest

/-- The trees of the properties of an object. -/
def propertiesToTree : Properties Value → Properties Tree
  | [] => []
  | (name, value) :: rest => (name, toTree value) :: propertiesToTree rest

end

section Visiting

variable {α : Type} (made : Visitor α)

mutual

/-- What a visitor makes of the value, part by part. -/
def visit : Value → Except VisitError α
  | null => .ok made.unit
  | bool b => .ok (made.bool b)
  | number n => made.number n
  | string s => .ok (made.string s)
  | array items => do return made.array (← visitItems items)
  | object properties => do return made.object (← visitProperties [] properties)

/-- The items of an array, visited one by one. -/
def visitItems : List Value → Except VisitError (List α)
  | [] => .ok []
  | item :: rest => do
    let first ← visit item
    return first :: (← visitItems rest)

/-- The properties visited so far and those visited one by one after them. -/
def visitProperties (done : Properties α) : Properties Value → Except VisitError (Properties α)
  | [] => .ok done
  | (name, value) :: rest => do
    visitProperties (made.insert done name (← visit value)) rest

end

end Visiting

/-- The document tree that is made of the value by visiting it. -/
def decode (value : Value) : Except VisitError Tree :=
  value.visit Tree.visitor

mutual

/-- The JSON value with the same parts as a tree. -/
def ofTree : Tree → Value
  | .scalar s => ofScalar s
  | .array items => array (itemsOfTree items)
  | .object properties => object (propertiesOfTree properties)

/-- The values of the items of an array. -/
def itemsOfTree : List Tree → List Value
  | [] => []
  | item :: rest => ofTree item :: itemsOfTree rest

/-- The values of the properties of an object. -/
def propertiesOfTree : Properties Tree → Properties Value
  | [] => []
  | (name, value) :: rest => (name, ofTree value) :: propertiesOfTree rest

end

mutual

/-- The text of a value on one line. -/
def write : Value → List Char
  | null => scalarText .null
  | bool b => scalarText (.bool b)
  | number n => scalarText (.number n)
  | string s => scalarText (.string s)
  | array [] => ['[', ']']
  | array (item :: rest) => '[' :: write item ++ writeItems rest ++ [']']
  | object [] => ['{', '}']
  | object ((name, value) :: rest) =>
    '{' :: quoted name ++ ':' :: write value ++ writeProperties rest ++ ['}']

/-- The items behind the first one. -/
def writeItems : List Value → List Char
  | [] => []
  | item :: rest => ',' :: write item ++ writeItems rest

/-- The properties behind the first one. -/
def writeProperties : Properties Value → List Char
  | [] => []
  | (name, value) :: rest =>
    ',' :: quoted name ++ ':' :: write value ++ writeProperties rest

end

/-- The text of a value on one line. -/
def compactText (value : Value) : String :=
  String.ofList (write value)

end Value

end PartialResponse.Json
