import PartialResponse.Document.Basic
import PartialResponse.Json.Parser
import PartialResponse.Text.Blank
import PartialResponse.Text.Lines
import PartialResponse.Yaml.Value.Merge
import PartialResponse.Yaml.Value.Tree

/-!
# PartialResponse.Document.Reader — reading documents

A JSON text is one value. JSON Lines has a value on every line that is not
blank. A YAML text has one or more documents; they are read one after the other,
and each becomes a tree before the next one is looked at.
-/

namespace PartialResponse

/-- Why a text is not a document. Lines and YAML documents are counted from 1. -/
inductive ReadError where
  | json
  | jsonLine (number : Nat)
  | noJsonLines
  | yaml (number : Nat)
  | yamlMerge (number : Nat)
  | yamlValue (cause : Yaml.Unsupported)
deriving DecidableEq, Repr

/-- The message about it. -/
def ReadError.message : ReadError → String
  | json => "Failed to parse JSON"
  | jsonLine number => s!"Invalid JSON on line {number}"
  | noJsonLines => "No valid JSON found in JSONL content"
  | yaml number => s!"Failed to parse YAML document {number}"
  | yamlMerge number => s!"Failed to resolve merge keys in YAML document {number}"
  | yamlValue cause => cause.message

namespace Document

/-- Reads a JSON text. -/
def readJson (text : List Char) : Except ReadError Document :=
  match Json.parse? text with
  | some value => .ok (single value)
  | none => .error .json

/-- Reads lines of JSON, of which the first has the given number. -/
def readLines (number : Nat) : List (List Char) → Except ReadError (List Tree)
  | [] => .ok []
  | line :: rest =>
    if Text.isBlankText line then readLines (number + 1) rest
    else
      match Json.parse? line with
      | none => .error (.jsonLine number)
      | some value => (readLines (number + 1) rest).map (value :: ·)

/-- Reads a JSON Lines text. A carriage return at the end of a line is white space to JSON. -/
def readJsonLines (text : List Char) : Except ReadError Document :=
  match readLines 1 (Text.lines text) with
  | .error e => .error e
  | .ok [] => .error .noJsonLines
  | .ok values => .ok (stream values)

/-- Reads one YAML document, which has the given number in its text. -/
def readYamlDocument (number : Nat) (graph : Except Yaml.Fault Yaml.NodeGraph) :
    Except ReadError Tree :=
  match graph.bind Yaml.Value.ofGraph with
  | .error _ => .error (.yaml number)
  | .ok value =>
    match value.merged? with
    | none => .error (.yamlMerge number)
    | some value =>
      match value.toTree with
      | .error cause => .error (.yamlValue cause)
      | .ok tree => .ok tree

/-- Reads YAML documents, of which the first has the given number. -/
def readYamlDocuments (number : Nat) :
    List (Except Yaml.Fault Yaml.NodeGraph) → Except ReadError (List Tree)
  | [] => .ok []
  | graph :: rest =>
    match readYamlDocument number graph with
    | .error e => .error e
    | .ok tree => (readYamlDocuments (number + 1) rest).map (tree :: ·)

/-- Reads a YAML text. -/
def readYaml (text : List Char) : Except ReadError Document :=
  match readYamlDocuments 1 (Yaml.NodeGraph.ofText text) with
  | .error e => .error e
  | .ok [] => .ok (single .null)
  | .ok [value] => .ok (single value)
  | .ok values => .ok (stream values)

/-- Reads a text in the given format. -/
def read (format : Format) (text : String) : Except ReadError Document :=
  match format with
  | .json => readJson text.toList
  | .jsonLines => readJsonLines text.toList
  | .yaml => readYaml text.toList

end Document

end PartialResponse
