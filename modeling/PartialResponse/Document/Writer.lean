import PartialResponse.Config.Basic
import PartialResponse.Document.Basic
import PartialResponse.Yaml.Printer.Document

/-!
# PartialResponse.Document.Writer — writing documents

A single value is written as JSON in the layout that is configured. JSON Lines,
and a stream in either JSON format, have each value on a line of its own. YAML
documents are separated by a line of hyphens. All texts end with a line feed.

Every document has a text but for a single value that is to be written as JSON by a
configuration without a layout.
-/

namespace PartialResponse.Document

/-- The lines of the values, one for each. -/
def writeLines (values : List Tree) : List Char :=
  values.flatMap fun value => Json.write .compact 0 value ++ ['\n']

/-- The YAML documents of the values. -/
def writeYaml : List Tree → List Char
  | [] => []
  | [value] => Yaml.write value
  | value :: rest => Yaml.write value ++ '-' :: '-' :: '-' :: '\n' :: writeYaml rest

/-- The text of a document in a format. The configuration is for a single JSON value, which is not
written if there is no layout. -/
def write? (format : Format) (c : Config) (document : Document) : Option (List Char) :=
  match document, format with
  | d, .yaml => some (writeYaml d.values)
  | single value, .json => c.layout?.map fun layout => Json.write layout 0 value ++ ['\n']
  | d, _ => some (writeLines d.values)

/-- The text of a document in a format. -/
def text? (format : Format) (c : Config) (document : Document) : Option String :=
  (document.write? format c).map String.ofList

section

variable {c : Config} {format : Format}

@[simp]
theorem write?_yaml (d : Document) : d.write? .yaml c = some (writeYaml d.values) := by
  cases d <;> rfl

@[simp]
theorem write?_jsonLines (d : Document) : d.write? .jsonLines c = some (writeLines d.values) := by
  cases d <;> rfl

@[simp]
theorem write?_single_json (value : Tree) :
    (single value).write? .json c =
      c.layout?.map fun layout => Json.write layout 0 value ++ ['\n'] :=
  rfl

theorem write?_stream (hformat : format ≠ .yaml) (values : List Tree) :
    (stream values).write? format c = some (writeLines values) := by
  cases format with
  | yaml => exact absurd rfl hformat
  | _ => rfl

/-- A document has no text just if it is a single value to be written as JSON, and there is no
layout. -/
theorem write?_eq_none_iff {d : Document} :
    d.write? format c = none ↔ (∃ value, d = single value) ∧ format = .json ∧ c.layout? = none := by
  cases d <;> cases format <;> simp [write?]

end

end PartialResponse.Document
