import PartialResponse.Text.Terminal

/-!
# PartialResponse.CommandLine.Arguments — arguments

An argument is an option, a group of one-letter options, the value of the option
before it or the file to read. What an option comes to is settled when the next
option or file is met, or at the end; so an unknown argument is noticed before a
missing value in front of it. Behind two hyphens there are no options. Arguments are
texts: one whose bytes are no text is left out.
-/

namespace PartialResponse.CommandLine

/-- What the command line asks for. -/
structure Arguments where
  /-- The document to read; without it, the standard input. -/
  file : Option String
  /-- The selector text. -/
  fields : Option String
  ignoreCase : Bool
  ignoreParseErrors : Bool
  /-- Selector texts for what is always included. -/
  alwaysInclude : List String
  compact : Bool
  /-- The file to write; without it, the standard output. -/
  output : Option String
  config : Option String
deriving DecidableEq, Repr

/-- The command line with nothing on it. -/
def Arguments.empty : Arguments := ⟨none, none, false, false, [], false, none, none⟩

/-- Options without a value. -/
inductive Flag where
  | ignoreCase
  | ignoreParseErrors
  | compact
  | help
  | version
deriving DecidableEq, Repr

/-- Options with a value. -/
inductive Setting where
  | fields
  | alwaysInclude
  | output
  | config
deriving DecidableEq, Repr

/-- An option. -/
inductive Choice where
  | flag (flag : Flag)
  | setting (setting : Setting)
deriving DecidableEq, Repr

/-- The option with a long name. -/
def Choice.ofName? (name : String) : Option Choice :=
  if name = "fields" then some (.setting .fields)
  else if name = "ignore-case" then some (.flag .ignoreCase)
  else if name = "ignore-parse-errors" then some (.flag .ignoreParseErrors)
  else if name = "always-include" then some (.setting .alwaysInclude)
  else if name = "compact" then some (.flag .compact)
  else if name = "output" then some (.setting .output)
  else if name = "config" then some (.setting .config)
  else if name = "help" then some (.flag .help)
  else if name = "version" then some (.flag .version)
  else none

/-- The option with a one-letter name. -/
def Choice.ofLetter? (letter : Char) : Option Choice :=
  if letter = 'f' then some (.setting .fields)
  else if letter = 'i' then some (.flag .ignoreCase)
  else if letter = 'a' then some (.setting .alwaysInclude)
  else if letter = 'o' then some (.setting .output)
  else if letter = 'h' then some (.flag .help)
  else if letter = 'V' then some (.flag .version)
  else none

/-- How messages name an option without a value. -/
def Flag.name : Flag → String
  | ignoreCase => "--ignore-case"
  | ignoreParseErrors => "--ignore-parse-errors"
  | compact => "--compact"
  | help => "--help"
  | version => "--version"

/-- How messages name an option with a value. -/
def Setting.name : Setting → String
  | fields => "--fields <FIELDS>"
  | alwaysInclude => "--always-include <ALWAYS_INCLUDE>"
  | output => "--output <OUTPUT>"
  | config => "--config <CONFIG>"

/-- How messages name the file to read. -/
def fileName : String := "[FILE]"

/-! ## Errors -/

/-- What is wrong with a command line. -/
inductive UsageError where
  | unexpected (argument : String)
  | unexpectedValue (value name : String)
  | repeated (name : String)
  | missingValue (name : String)
deriving DecidableEq, Repr

/-- The message about it. What stands on the command line is repeated as a terminal shows it. -/
def UsageError.message : UsageError → String
  | unexpected argument =>
    s!"error: unexpected argument '{Text.Terminal.shown argument}' found"
  | unexpectedValue value name =>
    s!"error: unexpected value '{Text.Terminal.shown value}' for '{name}' found; no more were expected"
  | repeated name => s!"error: the argument '{name}' cannot be used multiple times"
  | missingValue name => s!"error: a value is required for '{name}' but none was supplied"

/-- Why a command line does not lead to a run. -/
inductive Stop where
  | usage (error : UsageError)
  | help
  | version
deriving DecidableEq, Repr

/-! ## Settling options -/

/-- What has been met but not settled yet. -/
inductive Pending where
  | nothing
  | setting (setting : Setting) (value : Option String)
  | file (path : String)
deriving DecidableEq, Repr

/-- How far a command line has been read. -/
structure Progress where
  /-- What has been settled. -/
  settled : Arguments
  pending : Pending
deriving DecidableEq, Repr

/-- Settles an option without a value. -/
def settleFlag (a : Arguments) : Flag → Except Stop Arguments
  | .ignoreCase =>
    if a.ignoreCase then .error (.usage (.repeated Flag.ignoreCase.name))
    else .ok { a with ignoreCase := true }
  | .ignoreParseErrors =>
    if a.ignoreParseErrors then .error (.usage (.repeated Flag.ignoreParseErrors.name))
    else .ok { a with ignoreParseErrors := true }
  | .compact =>
    if a.compact then .error (.usage (.repeated Flag.compact.name))
    else .ok { a with compact := true }
  | .help => .error .help
  | .version => .error .version

/-- Settles an option with a value. A path must not be empty. -/
def settleSetting (a : Arguments) (value : String) : Setting → Except Stop Arguments
  | .fields =>
    if a.fields.isSome then .error (.usage (.repeated Setting.fields.name))
    else .ok { a with fields := some value }
  | .alwaysInclude => .ok { a with alwaysInclude := a.alwaysInclude ++ [value] }
  | .output =>
    if a.output.isSome then .error (.usage (.repeated Setting.output.name))
    else if value.isEmpty then .error (.usage (.missingValue Setting.output.name))
    else .ok { a with output := some value }
  | .config =>
    if a.config.isSome then .error (.usage (.repeated Setting.config.name))
    else if value.isEmpty then .error (.usage (.missingValue Setting.config.name))
    else .ok { a with config := some value }

/-- Settles what is pending. -/
def settle (p : Progress) : Except Stop Arguments :=
  match p.pending with
  | .nothing => .ok p.settled
  | .setting setting none => .error (.usage (.missingValue setting.name))
  | .setting setting (some value) => settleSetting p.settled value setting
  | .file path =>
    if path.isEmpty then .error (.usage (.missingValue fileName))
    else .ok { p.settled with file := some path }

/-! ## Reading -/

/-- Takes an option without a value. -/
def takeFlag (p : Progress) (flag : Flag) : Except Stop Progress := do
  return ⟨← settleFlag (← settle p) flag, .nothing⟩

/-- Takes an option whose value is in the same argument. -/
def takeWithValue (p : Progress) (setting : Setting) (value : String) : Except Stop Progress := do
  return ⟨← settleSetting (← settle p) value setting, .nothing⟩

/-- Takes an option whose value is the next argument. -/
def takeWithoutValue (p : Progress) (setting : Setting) : Except Stop Progress := do
  return ⟨← settle p, .setting setting none⟩

/-- Takes an option by its long name. -/
def takeNamed (p : Progress) (name : String) (value : Option String) : Except Stop Progress :=
  match Choice.ofName? name, value with
  | none, _ => .error (.usage (.unexpected ("--" ++ name)))
  | some (.flag flag), none => takeFlag p flag
  | some (.flag flag), some value => .error (.usage (.unexpectedValue value flag.name))
  | some (.setting setting), none => takeWithoutValue p setting
  | some (.setting setting), some value => takeWithValue p setting value

/-- Takes options by their one-letter names. What stands behind the letter of an option with a value
is that value; an equals sign in front does not belong to it. -/
def takeLetters (p : Progress) : List Char → Except Stop Progress
  | [] => .ok p
  | letter :: rest =>
    match Choice.ofLetter? letter with
    | none => .error (.usage (.unexpected (.ofList ['-', letter])))
    | some (.flag flag) => do takeLetters (← takeFlag p flag) rest
    | some (.setting setting) =>
      match rest with
      | [] => takeWithoutValue p setting
      | '=' :: value => takeWithValue p setting (.ofList value)
      | value => takeWithValue p setting (.ofList value)

/-- Takes the file to read, of which there is one at most. -/
def takeFile (p : Progress) (path : String) : Except Stop Progress :=
  match p.settled.file, p.pending with
  | some _, _ => .error (.usage (.unexpected path))
  | none, .file _ => .error (.usage (.unexpected path))
  | none, _ => do return ⟨← settle p, .file path⟩

/-- Takes an argument that is not an option: the value of the option before it, or the file. -/
def takePlain (p : Progress) (argument : String) : Except Stop Progress :=
  match p.pending with
  | .setting setting none => .ok { p with pending := .setting setting (some argument) }
  | _ => takeFile p argument

/-- Takes an argument that may be an option. A single hyphen is not. -/
def take (p : Progress) (argument : String) : Except Stop Progress :=
  match argument.toList with
  | '-' :: '-' :: text =>
    let name := text.takeWhile (· != '=')
    let value := (text.drop name.length).tail?.map String.ofList
    takeNamed p (.ofList name) value
  | '-' :: c :: letters => takeLetters p (c :: letters)
  | _ => takePlain p argument

/-- Reads arguments behind two hyphens. -/
def takeFiles (p : Progress) : List String → Except Stop Progress
  | [] => .ok p
  | argument :: rest => do takeFiles (← takeFile p argument) rest

/-- Reads arguments. -/
def takeAll (p : Progress) : List String → Except Stop Progress
  | [] => .ok p
  | argument :: rest =>
    if argument = "--" then takeFiles p rest
    else do takeAll (← take p argument) rest

/-- What a command line asks for. -/
def Arguments.parse (arguments : List String) : Except Stop Arguments := do
  settle (← takeAll ⟨.empty, .nothing⟩ arguments)

end PartialResponse.CommandLine
