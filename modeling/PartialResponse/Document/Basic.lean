import PartialResponse.Tree.Basic

/-!
# PartialResponse.Document.Basic — documents

A document is one value, or a stream of values that stand on their own. Its
format is told by the name of the file that holds it.
-/

namespace PartialResponse

/-- A document. -/
inductive Document where
  | single (value : Tree)
  | stream (values : List Tree)

namespace Document

/-- The root values of a document. -/
def values : Document → List Tree
  | single value => [value]
  | stream values => values

/-- Changes every root value. -/
def map (f : Tree → Tree) : Document → Document
  | single value => single (f value)
  | stream values => stream (values.map f)

end Document

/-- How a document is written. -/
inductive Format where
  | json
  | jsonLines
  | yaml
deriving DecidableEq, Repr

namespace Format

/-- Whether a path ends in a text. -/
def endsIn (ending : String) (path : List Char) : Bool :=
  ending.toList.isSuffixOf path

/-- The path without an ending that marks compressed files. -/
def uncompressedPath (path : List Char) : List Char :=
  if endsIn ".gz" path then path.take (path.length - 3) else path

/-- The format of the file with the given path. The ending decides; without a known one it is
JSON. -/
def ofPath (path : String) : Format :=
  let base := uncompressedPath path.toList
  if endsIn ".jsonl" base || endsIn ".ndjson" base then jsonLines
  else if endsIn ".yaml" base || endsIn ".yml" base then yaml
  else json

end Format

end PartialResponse
