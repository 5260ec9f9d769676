import PartialResponse.Yaml.Printer.Text
import PartialResponse.Yaml.Value.Tree

/-!
# PartialResponse.Yaml.Printer.Document — writing YAML documents

Objects and arrays that are not empty are written as blocks, two spaces deeper
at each level. Items of an array that is a property's value are not indented
more deeply than the property. Behind the marks of an item, of a key and of a
value that stands apart from its key, a block starts on the same line.
-/

namespace PartialResponse.Yaml

/-- A scalar, of which further lines are indented by `indent`. -/
def scalarText (indent : Nat) : Scalar → List Char
  | .null => ['n', 'u', 'l', 'l']
  | .bool true => ['t', 'r', 'u', 'e']
  | .bool false => ['f', 'a', 'l', 's', 'e']
  | .number n => n.text floatNotation
  | .string s => textOf indent s

/-- Ends a line, unless it has been ended. -/
def endLine (text : List Char) : List Char :=
  if text.getLast?.any isBreak then text else text ++ ['\n']

/-- Whether a key is written in front of its value on one line; otherwise it stands apart, behind a
mark of its own. -/
def isSimpleKey (name : String) : Bool :=
  !isMultiline name.toList && name.utf8ByteSize ≤ 128

/-- Spaces in front of a line. -/
def spaces (n : Nat) : List Char :=
  List.replicate n ' '

mutual

/-- A value that starts on the current line. A block in it is indented by `indent`, and the further
lines of a scalar by `inner`. -/
def writeHere (indent inner : Nat) : Tree → List Char
  | .scalar value => endLine (scalarText inner value)
  | .array items => if items.isEmpty then ['[', ']', '\n'] else writeItems [] indent items
  | .object properties =>
    if properties.isEmpty then ['{', '}', '\n'] else writeProperties [] indent properties

/-- A value behind its key and the colon. -/
def writeBehindKey (indent : Nat) : Tree → List Char
  | .scalar value => ' ' :: endLine (scalarText (indent + 2) value)
  | .array items =>
    if items.isEmpty then [' ', '[', ']', '\n']
    else writeItems ('\n' :: spaces indent) indent items
  | .object properties =>
    if properties.isEmpty then [' ', '{', '}', '\n']
    else writeProperties ('\n' :: spaces (indent + 2)) (indent + 2) properties

/-- The items of an array, with `lead` in front of the first one. -/
def writeItems (lead : List Char) (indent : Nat) : List Tree → List Char
  | [] => []
  | item :: rest =>
    lead ++ '-' :: ' ' :: writeHere (indent + 2) (indent + 2) item ++
      writeItems (spaces indent) indent rest

/-- The properties of an object, with `lead` in front of the first one. -/
def writeProperties (lead : List Char) (indent : Nat) : Properties Tree → List Char
  | [] => []
  | (name, value) :: rest =>
    let key := textOf (indent + 2) name
    let property :=
      if isSimpleKey name then key ++ ':' :: writeBehindKey indent value
      else
        '?' :: ' ' :: endLine key ++ spaces indent ++
          ':' :: ' ' :: writeHere (indent + 2) (indent + 2) value
    lead ++ property ++ writeProperties (spaces indent) indent rest

end

/-- The text of a document. -/
def write (value : Tree) : List Char :=
  writeHere 0 2 value

end PartialResponse.Yaml
