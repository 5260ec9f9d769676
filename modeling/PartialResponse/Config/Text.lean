import PartialResponse.Config.Basic
import PartialResponse.Toml.Printer
import PartialResponse.Toml.Reader

/-!
# PartialResponse.Config.Text — configurations as text

Every setting has a key. A setting whose key is missing keeps its default, and
other keys are not looked at. A text with a value of another type at a setting's
key is not a configuration.
-/

namespace PartialResponse.Config

/-! ## Settings -/

/-- The text at a key, or the default. -/
def stringAt? (entries : Toml.Entries) (key default : String) : Option String :=
  match Properties.get? entries key with
  | none => some default
  | some (.string text) => some (.ofList text)
  | some _ => none

/-- The truth value at a key, or the default. -/
def boolAt? (entries : Toml.Entries) (key : String) (default : Bool) : Option Bool :=
  match Properties.get? entries key with
  | none => some default
  | some (.boolean b) => some b
  | some _ => none

/-- The truth value at a key, if there is any. -/
def optionalBoolAt? (entries : Toml.Entries) (key : String) : Option (Option Bool) :=
  match Properties.get? entries key with
  | none => some none
  | some (.boolean b) => some (some b)
  | some _ => none

/-- The natural number at a key, or the default. -/
def naturalAt? (entries : Toml.Entries) (key : String) (default : Nat) : Option Nat :=
  match Properties.get? entries key with
  | none => some default
  | some (.integer n) => if n < 0 then none else some n.toNat
  | some _ => none

/-- The text that a value is. -/
def text? : Toml.Value → Option String
  | .string text => some (.ofList text)
  | _ => none

/-- The texts at a key, or the default. -/
def stringsAt? (entries : Toml.Entries) (key : String) (default : List String) :
    Option (List String) :=
  match Properties.get? entries key with
  | none => some default
  | some (.array items) => items.mapM text?
  | some _ => none

/-! ## Reading and writing -/

/-- The configuration that the entries of a table describe. -/
def ofEntries? (entries : Toml.Entries) : Option Config := do
  some {
    fieldsParam := ← stringAt? entries "fields_param_name" default.fieldsParam
    ignoreCase := ← boolAt? entries "ignore_case" default.ignoreCase
    ignoreParseErrors := ← boolAt? entries "ignore_parse_errors" default.ignoreParseErrors
    alwaysIncluded := ← stringsAt? entries "always_included" default.alwaysIncluded
    alwaysIgnoreCase := ← optionalBoolAt? entries "always_included_ignore_case"
    indentSize := ← naturalAt? entries "indent_size" default.indentSize
    compact := ← boolAt? entries "compact" default.compact }

/-- Reads a configuration. -/
def read? (text : List Char) : Option Config :=
  (Toml.read? text).bind ofEntries?

/-- The text of a configuration. There is none if the size of the indentation is too large an
integer. -/
def write? (c : Config) : Option (List Char) :=
  if c.indentSize ≤ Toml.maxInteger then
    some (
      Toml.writeEntry "fields_param_name" (Toml.writeString c.fieldsParam.toList) ++
      Toml.writeEntry "ignore_case" (Toml.writeBool c.ignoreCase) ++
      Toml.writeEntry "ignore_parse_errors" (Toml.writeBool c.ignoreParseErrors) ++
      Toml.writeEntry "always_included" (Toml.writeStrings (c.alwaysIncluded.map (·.toList))) ++
      (c.alwaysIgnoreCase.map fun b =>
        Toml.writeEntry "always_included_ignore_case" (Toml.writeBool b)).getD [] ++
      Toml.writeEntry "indent_size" (Text.digitText c.indentSize) ++
      Toml.writeEntry "compact" (Toml.writeBool c.compact))
  else none

end PartialResponse.Config
