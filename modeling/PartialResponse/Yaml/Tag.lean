import PartialResponse.Text.Utf8

/-!
# PartialResponse.Yaml.Tag — tags

A tag comes as bytes. Those of the types that scalars have are told apart by name.
A tag that starts with an exclamation mark is the value's own, and goes by its text
without that mark; if its bytes are no text, it goes by nothing.
-/

namespace PartialResponse.Yaml

/-- The tag of a node. -/
inductive Tag where
  | truth
  | integer
  | float
  | null
  /-- A tag of the value's own, by its name. -/
  | own (name : String)
  /-- A tag of the value's own that is no text. -/
  | unreadable
  /-- A tag of neither kind. -/
  | foreign
deriving DecidableEq, Repr

namespace Tag

/-- The bytes that the tags of all types start with. -/
def typePrefix : List UInt8 :=
  Text.Utf8.encode "tag:yaml.org,2002:".toList

/-- The bytes of the tag of a type. -/
def typeBytes (name : String) : List UInt8 :=
  typePrefix ++ Text.Utf8.encode name.toList

/-- A text without the exclamation mark in front, unless that is all there is. -/
def unmarked : List Char → List Char
  | '!' :: c :: rest => c :: rest
  | text => text

/-- The tag with the given bytes. A second exclamation mark does not belong to the name either. -/
def ofBytes (bytes : List UInt8) : Tag :=
  if bytes.head? = some 0x21 then
    match Text.Utf8.decode? bytes with
    | some text => own (.ofList (unmarked (unmarked text)))
    | none => unreadable
  else if bytes = typeBytes "bool" then truth
  else if bytes = typeBytes "int" then integer
  else if bytes = typeBytes "float" then float
  else if bytes = typeBytes "null" then null
  else foreign

/-- The name of a value's own tag. -/
def ownName? : Tag → Option String
  | own name => some name
  | _ => none

end Tag

end PartialResponse.Yaml
