import PartialResponse.CommandLine.Arguments
import PartialResponse.Config.File
import PartialResponse.Document.File
import PartialResponse.Document.Input
import PartialResponse.Document.Prune
import PartialResponse.Selector.Outcome

/-!
# PartialResponse.CommandLine.Run — a run

A run loads the configuration and the document, prunes the document by the
selector and writes what is left, to a file or to the standard output. Nothing is
written before all that has been read is known to be sound.
-/

namespace PartialResponse.CommandLine

/-- Why a run fails. -/
inductive RunError where
  | config (cause : ConfigLoadError)
  | load (cause : LoadError)
  | input (cause : InputError)
  /-- There is neither a file to read nor input. -/
  | noInput
  | alwaysIncluded (cause : SelectorError)
  | selector (cause : SelectorError)
  | save (path : String) (cause : SaveError)
  /-- There is no text of the document for the standard output. -/
  | noText
  | output (cause : OutputError)
deriving DecidableEq

/-- The message about it. -/
def RunError.message : RunError → String
  | config cause => cause.message
  | load cause => cause.message
  | input cause => cause.message
  | noInput => "No input file given and stdin is not piped"
  | alwaysIncluded _ => "Invalid always-included selector"
  | selector _ => "Invalid fields selector"
  | save _ .noText => SaveError.noText.message
  | save path _ => "Failed to save " ++ path
  | noText => SaveError.noText.message
  | output cause => cause.message

/-- Whether there was no error to hand back, and the program has stopped. -/
def RunError.isStop : RunError → Bool
  | save _ .noText => true
  | noText => true
  | _ => false

namespace Arguments

/-- The configuration with what the command line adds to it. -/
def layer (a : Arguments) (c : Config) : Config :=
  { c with
    ignoreCase := c.ignoreCase || a.ignoreCase
    ignoreParseErrors := c.ignoreParseErrors || a.ignoreParseErrors
    compact := c.compact || a.compact
    alwaysIncluded := c.alwaysIncluded ++ a.alwaysInclude }

/-- The format of the output, as told by the file to write, or else by the file to read. -/
def outputFormat (a : Arguments) : Format :=
  match a.output, a.file with
  | some path, _ => .ofPath path
  | none, some path => .ofPath path
  | none, none => .json

end Arguments

/-- What is left of a document. Without a selector that is all of it, and so it is with a malformed
one if such selectors count as absent. -/
def select (a : Arguments) (c : Config) (document : Document) : Except RunError Document :=
  match c.always with
  | .error cause => .error (.alwaysIncluded cause)
  | .ok always =>
    match Outcome.ofText? a.fields with
    | .selected selection => .ok (document.prune ⟨selection, c.caseMode, always⟩)
    | .malformed cause =>
      if c.ignoreParseErrors then .ok document else .error (.selector cause)
    | .absent => .ok document

variable {m : Type → Type} [Monad m] [MonadFiles m]

/-- Loads the configuration that a run starts from. -/
def loadConfig (a : Arguments) (home : Option String) : m (Except RunError Config) := do
  match a.config with
  | some path =>
    match ← Config.load path with
    | .error cause => return .error (.config cause)
    | .ok c => return .ok (a.layer c)
  | none =>
    let (c, _) ← Config.loadFromHome home
    return .ok (a.layer c)

/-- Loads the document. The standard input is read only if there is no file to read. -/
def loadDocument (a : Arguments) (input : m (Option (List UInt8))) :
    m (Except RunError Document) := do
  match a.file with
  | some path => return (← Document.load path).mapError .load
  | none =>
    match ← input with
    | none => return .error .noInput
    | some bytes => return (Document.readInput bytes).mapError .input

/-- Writes the document to the file to write, or else to the standard output. -/
def writeDocument (a : Arguments) (c : Config) (document : Document) :
    m (Except RunError Unit) := do
  match a.output with
  | some path => return (← document.save path c).mapError (.save path)
  | none =>
    match document.write? a.outputFormat c with
    | none => return .error .noText
    | some text => return (← MonadFiles.output (Text.Utf8.encode text)).mapError .output

/-- Runs what the command line asks for. -/
def run (a : Arguments) (home : Option String) (input : m (Option (List UInt8))) :
    m (Except RunError Unit) := do
  match ← loadConfig a home with
  | .error e => return .error e
  | .ok c =>
    match ← loadDocument a input with
    | .error e => return .error e
    | .ok document =>
      match select a c document with
      | .error e => return .error e
      | .ok rest => writeDocument a c rest

end PartialResponse.CommandLine
