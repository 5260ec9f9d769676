import PartialResponse.Json.Token
import PartialResponse.Tree.Visitor

/-!
# PartialResponse.Json.Parser — reading JSON values

Tokens are read one by one. The containers that are still open lie on a stack,
the innermost on top; at most 127 may be open at once.

What is made of the values is left to a `Visitor`, which also says what becomes of an
object that repeats a property name.
-/

namespace PartialResponse.Json

/-- How many containers may lie around a value. -/
def maxDepth : Nat := 127

/-- An open container that waits for a value. -/
inductive Frame (α : Type) where
  /-- An array with the items read so far, the last one first. -/
  | array (items : List α)
  /-- An object with the properties read so far, and the name of the one being read. -/
  | object (properties : Properties α) (name : String)

/-- What has been read, and so what may follow. -/
inductive Progress (α : Type) where
  /-- A value. -/
  | atValue (outer : List (Frame α))
  /-- The first item of an array, or its end. -/
  | firstItem (outer : List (Frame α))
  /-- A comma behind an item, or the end of the array. -/
  | afterItem (outer : List (Frame α)) (items : List α)
  /-- The first property name of an object, or its end. -/
  | firstName (outer : List (Frame α))
  /-- A property name. -/
  | atName (outer : List (Frame α)) (properties : Properties α)
  /-- The colon behind a property name. -/
  | atColon (outer : List (Frame α)) (properties : Properties α) (name : String)
  /-- A comma behind a property, or the end of the object. -/
  | afterProperty (outer : List (Frame α)) (properties : Properties α)
  /-- Nothing. -/
  | done (value : α)

namespace Progress

variable {α : Type} (visitor : Visitor α)

/-- Puts a complete value into the innermost open container. -/
def complete (value : α) : List (Frame α) → Progress α
  | [] => done value
  | .array items :: outer => afterItem outer (value :: items)
  | .object properties name :: outer =>
    afterProperty outer (visitor.insert properties name value)

/-- Reads the first token of a value. -/
def startValue (outer : List (Frame α)) : Token → Option (Progress α)
  | .scalar value => (visitor.scalar value).toOption.map (complete visitor · outer)
  | .openArray => if outer.length < maxDepth then some (firstItem outer) else none
  | .openObject => if outer.length < maxDepth then some (firstName outer) else none
  | _ => none

@[simp]
theorem startValue_scalar (outer : List (Frame Tree)) (value : Scalar) :
    startValue Tree.visitor outer (.scalar value) =
      some (complete Tree.visitor (.scalar value) outer) := by
  simp [startValue, Except.toOption]

/-- Reads one token. -/
def step : Progress α → Token → Option (Progress α)
  | atValue outer, token => startValue visitor outer token
  | firstItem outer, .closeArray => some (complete visitor (visitor.array []) outer)
  | firstItem outer, token => startValue visitor (.array [] :: outer) token
  | afterItem outer items, .comma => some (atValue (.array items :: outer))
  | afterItem outer items, .closeArray =>
    some (complete visitor (visitor.array items.reverse) outer)
  | firstName outer, .closeObject => some (complete visitor (visitor.object []) outer)
  | firstName outer, .scalar (.string name) => some (atColon outer [] name)
  | atName outer properties, .scalar (.string name) => some (atColon outer properties name)
  | atColon outer properties name, .colon => some (atValue (.object properties name :: outer))
  | afterProperty outer properties, .comma => some (atName outer properties)
  | afterProperty outer properties, .closeObject =>
    some (complete visitor (visitor.object properties) outer)
  | _, _ => none

/-- The value, once it is complete. -/
def result? : Progress α → Option α
  | done value => some value
  | _ => none

end Progress

/-- What is made of the value that a sequence of tokens stands for. -/
def ofTokens? {α : Type} (visitor : Visitor α) (tokens : List Token) : Option α :=
  (tokens.foldlM (Progress.step visitor) (.atValue [])).bind Progress.result?

/-- The tree that a JSON text stands for. -/
def parse? (text : List Char) : Option Tree :=
  (Token.ofText? text).bind (ofTokens? Tree.visitor)

end PartialResponse.Json
