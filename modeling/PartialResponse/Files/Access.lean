import PartialResponse.Files.Path

/-!
# PartialResponse.Files.Access — what is done with files

Files are read, written, made and replaced through a few operations, and one more
writes to the standard output. Two things are built from the operations on files.
Directories are made together with those above them. And saving puts the bytes part
by part into a temporary file in the directory of the target, which then replaces the
target; if a step fails, the temporary file is removed.
-/

namespace PartialResponse

/-- Why an operation on files fails. -/
inductive FileError where
  | notFound
  | isDirectory
  | notDirectory
  | alreadyExists
  | noSpace
  /-- A name is longer than names of files can be, or the path is longer than paths can be. -/
  | nameTooLong
  /-- The path holds a character that no path can hold. -/
  | invalidPath
  | other
deriving DecidableEq, Repr

/-- Why bytes have not been written to the standard output. -/
inductive OutputError where
  | write
  | flush
deriving DecidableEq, Repr

/-- The message about it. -/
def OutputError.message : OutputError → String
  | write => "Failed to write output"
  | flush => "Failed to flush output"

/-- The operations on files, and on the standard output. -/
class MonadFiles (m : Type → Type) where
  /-- The bytes of a file. -/
  contents (path : String) : m (Except FileError (List UInt8))
  /-- Whether there is a file or a directory. -/
  isThere (path : String) : m Bool
  /-- Whether there is a directory. -/
  isDirectory (path : String) : m Bool
  /-- Makes a directory in one that is there. -/
  makeDirectory (path : String) : m (Except FileError Unit)
  /-- Gives a file new bytes. It is made if it is not there. -/
  overwrite (path : String) (bytes : List UInt8) : m (Except FileError Unit)
  /-- Adds bytes at the end of a file. -/
  append (path : String) (bytes : List UInt8) : m (Except FileError Unit)
  /-- Makes an empty file with a name of its own in a directory, and gives its path. -/
  createTemporary (directory : String) : m (Except FileError String)
  /-- Moves a file to a path. A file that is there is replaced. -/
  replace (source target : String) : m (Except FileError Unit)
  /-- Removes a file. -/
  remove (path : String) : m Unit
  /-- Writes bytes to the standard output, behind those written before. -/
  output (bytes : List UInt8) : m (Except OutputError Unit)

variable {m : Type → Type} [Monad m] [MonadFiles m]

/-! ## Making directories -/

/-- Makes a directory unless it is there. -/
def ensureDirectory (path : String) : m (Except FileError Unit) := do
  match ← MonadFiles.makeDirectory path with
  | .ok () => return .ok ()
  | .error e => return if ← MonadFiles.isDirectory path then .ok () else .error e

/-- Makes the first of some directories, each of which is in the next one. Those further on are
looked at only if something is missing. -/
def ensureAll : List String → m (Except FileError Unit)
  | [] => return .ok ()
  | path :: above => do
    match ← ensureDirectory path with
    | .error .notFound =>
      match ← ensureAll above with
      | .ok () => ensureDirectory path
      | .error e => return .error e
    | result => return result

/-- Makes a directory and those above it, as far as they are not there. -/
def makeDirectories (path : String) : m (Except FileError Unit) :=
  ensureAll (Files.ancestors path)

/-- Makes the directory above, and those above that. -/
def makeParent (path : String) : m (Except FileError Unit) :=
  makeDirectories ((Files.parent? path).getD "")

/-! ## Saving -/

/-- The steps of saving that can fail. -/
inductive SaveStep where
  | create
  | fill
  /-- What is written when all bytes are known, for files that end in a part of their own. -/
  | finish
  | replace
deriving DecidableEq, Repr

/-- What is to be written, part by part, each part with the step that it belongs to. -/
abbrev SaveParts := List (SaveStep × List UInt8)

/-- All that is to be written. -/
def SaveParts.bytes (parts : SaveParts) : List UInt8 :=
  parts.flatMap (·.2)

/-- Adds parts at the end of a file, up to the first one that fails. -/
def appendParts (path : String) : SaveParts → m (Except SaveStep Unit)
  | [] => return .ok ()
  | (step, bytes) :: rest => do
    match ← MonadFiles.append path bytes with
    | .error _ => return .error step
    | .ok () => appendParts path rest

/-- Saves parts in a file, all of them or none. -/
def saveParts (path : String) (parts : SaveParts) : m (Except SaveStep Unit) := do
  match ← MonadFiles.createTemporary (Files.directory path) with
  | .error _ => return .error .create
  | .ok temporary =>
    match ← appendParts temporary parts with
    | .error step =>
      MonadFiles.remove temporary
      return .error step
    | .ok () =>
      match ← MonadFiles.replace temporary path with
      | .error _ =>
        MonadFiles.remove temporary
        return .error .replace
      | .ok () => return .ok ()

end PartialResponse
