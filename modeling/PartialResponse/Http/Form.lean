import PartialResponse.Text.Digits
import PartialResponse.Text.Utf8

/-!
# PartialResponse.Http.Form — names and values in a query

A query holds names and values: ampersands stand between items, and the first
equals sign of an item between name and value. A plus sign means a space, and a
percent sign with two hexadecimal digits a byte. Empty items do not count.
-/

namespace PartialResponse.Http.Form

/-- The parts of a text between separators. -/
def split (separator : Char) : List Char → List (List Char)
  | [] => [[]]
  | c :: rest =>
    if c = separator then [] :: split separator rest
    else
      match split separator rest with
      | [] => [[c]]
      | part :: more => (c :: part) :: more

/-- The bytes that a name or a value means. A percent sign that is not followed by two hexadecimal
digits means itself. -/
def bytes : List Char → List UInt8
  | [] => []
  | '+' :: rest => 0x20 :: bytes rest
  | '%' :: a :: b :: rest =>
    match Text.hexNumber? [a, b] with
    | some n => Text.Utf8.byte n :: bytes rest
    | none => 0x25 :: bytes (a :: b :: rest)
  | c :: rest => Text.Utf8.encodeChar c ++ bytes rest

/-- The name or value that a text means. Malformed bytes are replaced. -/
def decode (text : List Char) : String :=
  String.ofList (Text.Utf8.decodeLossy (bytes text))

/-- The name and the value of an item. -/
def item (text : List Char) : String × String :=
  (decode (text.takeWhile (· != '=')), decode ((text.dropWhile (· != '=')).drop 1))

/-- The names and values of a query in order. -/
def items (query : List Char) : List (String × String) :=
  ((split '&' query).filter (!·.isEmpty)).map item

/-- The first value that a query has for a name. -/
def value? (query name : String) : Option String :=
  (items query.toList).lookup name

end PartialResponse.Http.Form
