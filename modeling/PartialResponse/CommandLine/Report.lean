import PartialResponse.CommandLine.Run

/-!
# PartialResponse.CommandLine.Report — how the command ends

The command ends with an exit code and perhaps a message. What it writes to the
standard output it has written before. What is logged on the way is left out.
-/

namespace PartialResponse.CommandLine

/-- How the command ends. -/
structure Report where
  code : Nat
  /-- The message for the standard error output. -/
  message : Option String
deriving DecidableEq, Repr

/-- The version of the command. -/
def versionText : String := "fieldquill 0.1.0\n"

/-- A short explanation of the command. -/
def helpText : String :=
  "\n".intercalate [
    "Prune JSON and YAML documents with a fields selector",
    "",
    "Usage: fieldquill [OPTIONS] [FILE]",
    "",
    "Arguments:",
    "  [FILE]  Document to read (omit to read from stdin)",
    "",
    "Options:",
    "  -f, --fields <FIELDS>",
    "          Fields selector, e.g. \"items(id,name),totalCount\"",
    "  -i, --ignore-case",
    "          Match property names case-insensitively",
    "      --ignore-parse-errors",
    "          Leave the document unfiltered when the selector is malformed",
    "  -a, --always-include <ALWAYS_INCLUDE>",
    "          Selector always retained regardless of --fields (repeatable)",
    "      --compact",
    "          Write compact JSON",
    "  -o, --output <OUTPUT>",
    "          Write to this file instead of stdout",
    "      --config <CONFIG>",
    "          Config file to use instead of ~/.config/fieldquill/config.toml",
    "  -h, --help",
    "          Print help",
    "  -V, --version",
    "          Print version",
    ""]

/-- What is written to the standard output if there is no run. -/
def Stop.text : Stop → String
  | usage _ => ""
  | help => helpText
  | version => versionText

/-- How the command ends if there is no run. -/
def Stop.report : Stop → Report
  | usage error => ⟨2, some error.message⟩
  | help => ⟨0, none⟩
  | version => ⟨0, none⟩

/-- How the command ends if a run fails. -/
def RunError.report (e : RunError) : Report :=
  if e.isStop then ⟨101, some e.message⟩ else ⟨1, some ("Error: " ++ e.message)⟩

/-- How the command ends, by how the run ends. -/
def reportOf : Except RunError Unit → Report
  | .error e => e.report
  | .ok () => ⟨0, none⟩

variable {m : Type → Type} [Monad m] [MonadFiles m]

/-- Does what a command line asks for. -/
def execute (arguments : List String) (home : Option String)
    (input : m (Option (List UInt8))) : m Report := do
  match Arguments.parse arguments with
  | .error stop =>
    -- the command does not look whether the text has been taken
    let _ ← MonadFiles.output (Text.Utf8.encode stop.text.toList)
    return stop.report
  | .ok a => return reportOf (← run a home input)

end PartialResponse.CommandLine
