import PartialResponse.Document.Reader
import PartialResponse.Gzip.Member

/-!
# PartialResponse.Document.Input — bytes of unknown format

Input that no file name describes is recognized by its bytes: whether it is
compressed by the first two, and its format by the first reader that accepts the
text. JSON is tried first, then JSON Lines, then YAML.
-/

namespace PartialResponse

/-- Why bytes are not a document. -/
inductive InputError where
  | compression
  | encoding
  | format
deriving DecidableEq, Repr

/-- The message about it. -/
def InputError.message : InputError → String
  | compression => "Failed to decompress gzipped input"
  | encoding => "Invalid UTF-8 in input"
  | format => "Failed to parse input: it is not valid JSON, JSON Lines or YAML"

namespace Document

/-- The text that bytes hold, compressed or not. -/
def decodeInput (bytes : List UInt8) : Except InputError (List Char) :=
  if Gzip.isMarked bytes then
    match Gzip.text? bytes with
    | some text => .ok text
    | none => .error .compression
  else
    match Text.Utf8.decode? bytes with
    | some text => .ok text
    | none => .error .encoding

/-- Reads a text of unknown format. -/
def readAny? (text : List Char) : Option Document :=
  (readJson text).toOption <|> (readJsonLines text).toOption <|> (readYaml text).toOption

/-- Reads bytes of unknown format. -/
def readInput (bytes : List UInt8) : Except InputError Document :=
  match decodeInput bytes with
  | .error e => .error e
  | .ok text =>
    match readAny? text with
    | some document => .ok document
    | none => .error .format

end Document

end PartialResponse
