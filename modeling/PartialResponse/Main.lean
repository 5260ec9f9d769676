import PartialResponse.CommandLine.Report

/-!
# PartialResponse.Main — the command

The operations on files and on the standard output are those of the operating
system. All else is decided by `CommandLine.execute`.
-/

namespace PartialResponse

/-- The cause of an error of the operating system, which tells directories apart by its code. -/
def FileError.ofSystem : IO.Error → FileError
  | .noFileOrDirectory .. => .notFound
  | .alreadyExists .. => .alreadyExists
  | .inappropriateType _ code _ => if code = 21 then .isDirectory else .notDirectory
  | .resourceExhausted .. => .noSpace
  | .invalidArgument _ code _ => if code = 22 then .invalidPath else .nameTooLong
  | _ => .other

/-- Does something with files. -/
def attempt {α : Type} (action : IO α) : IO (Except FileError α) := do
  return (← action.toBaseIO).mapError FileError.ofSystem

/-- Makes an empty file with a random name, in so many attempts at most. -/
def createRandom (directory : String) : Nat → IO (Except FileError String)
  | 0 => return .error .alreadyExists
  | attempts + 1 => do
    let path := s!"{directory}/.tmp{← IO.rand 0 (2 ^ 60)}"
    match ← attempt (IO.FS.Handle.mk path .writeNew) with
    | .ok _ => return .ok path
    | .error .alreadyExists => createRandom directory attempts
    | .error e => return .error e

instance : MonadFiles IO where
  contents path := attempt do return (← IO.FS.readBinFile path).toList
  isThere path := do
    match ← attempt (IO.FS.Handle.mk path .read) with
    | .error .notFound => return false
    | .error .notDirectory => return false
    | .error .nameTooLong => return false
    | .error .invalidPath => return false
    -- what cannot be opened for another reason is there
    | _ => return true
  isDirectory path := do
    match ← attempt do (← IO.FS.realPath path).isDir with
    | .ok answer => return answer
    | .error _ => return false
  makeDirectory path := attempt (IO.FS.createDir path)
  overwrite path bytes := attempt (IO.FS.writeBinFile path (.mk bytes.toArray))
  append path bytes := attempt do
    (← IO.FS.Handle.mk path .append).write (.mk bytes.toArray)
  createTemporary directory := createRandom directory 16
  replace source target := attempt (IO.FS.rename source target)
  remove path := do
    let _ ← attempt (IO.FS.removeFile path)
  output bytes := do
    let out ← IO.getStdout
    match ← attempt (out.write (.mk bytes.toArray)) with
    | .error _ => return .error .write
    | .ok () =>
      -- a writer that is gone shows only when the bytes are passed on
      match ← attempt out.flush with
      | .error _ => return .error .flush
      | .ok () => return .ok ()

/-- The bytes of the standard input, unless it is a terminal. -/
def standardInput : IO (Option (List UInt8)) := do
  if ← (← IO.getStdin).isTty then return none
  else
    let bytes ← IO.FS.readBinFile "/dev/stdin"
    return some bytes.toList

/-- Shows the message, if there is one, and gives the exit code. -/
def CommandLine.Report.present (report : CommandLine.Report) : IO UInt32 := do
  match report.message with
  | some message => IO.eprintln message
  | none => pure ()
  return .ofNat report.code

end PartialResponse

open PartialResponse in
/-- Does what the arguments ask for. -/
def main (arguments : List String) : IO UInt32 := do
  (← CommandLine.execute arguments (← IO.getEnv "HOME") standardInput).present
