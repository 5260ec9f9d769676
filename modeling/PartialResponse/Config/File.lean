import PartialResponse.Config.Text
import PartialResponse.Files.Access
import PartialResponse.Text.Utf8

/-!
# PartialResponse.Config.File — configurations in files

A configuration is loaded from a file that is named, or from one in the home
directory. The latter may be missing; if it cannot be used, the default stands in
for it, and a warning is due.
-/

namespace PartialResponse

/-- Why a file is not a configuration. -/
inductive ConfigLoadError where
  | read (path : String)
  | parse (path : String)
deriving DecidableEq, Repr

/-- The message about it. -/
def ConfigLoadError.message : ConfigLoadError → String
  | read path => "Failed to read config file " ++ path
  | parse path => "Failed to parse config file " ++ path

/-- Why a configuration has not been saved. -/
inductive ConfigSaveError where
  | file (cause : FileError)
  /-- The size of the indentation is too large to be written. -/
  | indentSize
  | noHome
deriving DecidableEq, Repr

/-- The message about it, where the reason is not one of the file's. -/
def ConfigSaveError.message? : ConfigSaveError → Option String
  | file _ => none
  | indentSize => some "out-of-range value for u64 type"
  | noHome => some "Could not determine config directory"

namespace Config

/-- The path of the configuration in a home directory. -/
def homePath (home : String) : String :=
  home ++ "/.config/fieldquill/config.toml"

/-- The configuration in a file with the given path and contents. -/
def ofFile (path : String) (contents : Except FileError (List UInt8)) :
    Except ConfigLoadError Config :=
  match contents with
  | .error _ => .error (.read path)
  | .ok bytes =>
    match Text.Utf8.decode? bytes with
    | none => .error (.read path)
    | some text =>
      match read? text with
      | none => .error (.parse path)
      | some config => .ok config

variable {m : Type → Type} [Monad m] [MonadFiles m]

/-- Loads a configuration. -/
def load (path : String) : m (Except ConfigLoadError Config) := do
  return ofFile path (← MonadFiles.contents path)

/-- Loads the configuration in the home directory, if it is known, and tells whether a warning is
due. -/
def loadFromHome (home : Option String) : m (Config × Bool) := do
  match home.map homePath with
  | none => return (default, false)
  | some path =>
    if ← MonadFiles.isThere path then
      match ← load path with
      | .ok config => return (config, false)
      | .error _ => return (default, true)
    else return (default, false)

/-- Saves a configuration. The directory of the file is made before the configuration is written
out. -/
def save (path : String) (c : Config) : m (Except ConfigSaveError Unit) := do
  match ← makeParent path with
  | .error cause => return .error (.file cause)
  | .ok () =>
    match c.write? with
    | none => return .error .indentSize
    | some text =>
      match ← MonadFiles.overwrite path (Text.Utf8.encode text) with
      | .error cause => return .error (.file cause)
      | .ok () => return .ok ()

/-- Saves a configuration in the home directory. -/
def saveToHome (home : Option String) (c : Config) : m (Except ConfigSaveError Unit) :=
  match home with
  | none => return .error .noHome
  | some home => c.save (homePath home)

end Config

end PartialResponse
