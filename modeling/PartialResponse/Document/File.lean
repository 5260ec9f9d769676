import PartialResponse.Config.Basic
import PartialResponse.Document.Reader
import PartialResponse.Document.Writer
import PartialResponse.Files.Access
import PartialResponse.Gzip.Member

/-!
# PartialResponse.Document.File — documents in files

The name of a file tells its format, and whether it is compressed. Loading looks
at the ending of the file name, saving at the end of the whole path.
-/

namespace PartialResponse

/-- Why a file is not a document. -/
inductive LoadError where
  | read (path : String)
  | compressedRead
  | decompression
  | document (cause : ReadError)
deriving DecidableEq, Repr

/-- The message about it. -/
def LoadError.message : LoadError → String
  | read path => "Failed to read file " ++ path
  | compressedRead => "Failed to open gzipped file"
  | decompression => "Failed to decompress gzipped file - file may be corrupted"
  | document cause => cause.message

/-- Why a document has not been saved. -/
inductive SaveError where
  /-- There is no text of the document. This one is not handed back: the program stops. -/
  | noText
  | temporaryFile
  | compression
  | finishing
  | writing
  | replacing (path : String)
deriving DecidableEq, Repr

/-- The message about it. -/
def SaveError.message : SaveError → String
  | noText => "capacity overflow"
  | temporaryFile => "Failed to create temp file"
  | compression => "Failed to write compressed data"
  | finishing => "Failed to finish compression"
  | writing => "Failed to write temp file"
  | replacing path => "Failed to replace " ++ path

namespace Document

/-! ## Loading -/

/-- Whether loading takes a file for a compressed one. -/
def loadsCompressed (path : String) : Bool :=
  Files.extension? path == some "gz"

/-- The text in a file. That a path stands for a directory shows only when the bytes are read, behind
the point where a compressed file counts as opened. -/
def decodeFile (path : String) (contents : Except FileError (List UInt8)) :
    Except LoadError (List Char) :=
  if loadsCompressed path then
    match contents with
    | .error .isDirectory => .error .decompression
    | .error _ => .error .compressedRead
    | .ok bytes =>
      match Gzip.text? bytes with
      | some text => .ok text
      | none => .error .decompression
  else
    match contents with
    | .error _ => .error (.read path)
    | .ok bytes =>
      match Text.Utf8.decode? bytes with
      | some text => .ok text
      | none => .error (.read path)

/-- The document in a file with the given path and contents. -/
def ofFile (path : String) (contents : Except FileError (List UInt8)) :
    Except LoadError Document :=
  match decodeFile path contents with
  | .error e => .error e
  | .ok text =>
    match read (Format.ofPath path) (.ofList text) with
    | .error cause => .error (.document cause)
    | .ok document => .ok document

variable {m : Type → Type} [Monad m] [MonadFiles m]

/-- Loads a document. -/
def load (path : String) : m (Except LoadError Document) := do
  return ofFile path (← MonadFiles.contents path)

/-! ## Saving -/

/-- Whether saving compresses a file. -/
def savesCompressed (path : String) : Bool :=
  Format.endsIn ".gz" path.toList

/-- What is written into the file with the given path so that it holds the given bytes. -/
def partsFor (compressor : Gzip.Compressor) (path : String) (bytes : List UInt8) : SaveParts :=
  if savesCompressed path then
    [(.fill, compressor.body bytes), (.finish, compressor.ending bytes)]
  else [(.fill, bytes)]

/-- Saves a text, all of it or nothing, with a way to write compressed files. -/
def saveText (compressor : Gzip.Compressor) (path : String) (text : List Char) :
    m (Except SaveError Unit) := do
  match ← saveParts path (partsFor compressor path (Text.Utf8.encode text)) with
  | .error .create => return .error .temporaryFile
  | .error .fill => return .error (if savesCompressed path then .compression else .writing)
  | .error .finish => return .error .finishing
  | .error .replace => return .error (.replacing path)
  | .ok () => return .ok ()

/-- Saves a document, all of it or nothing, with a way to write compressed files. -/
def saveWith (compressor : Gzip.Compressor) (path : String) (c : Config) (document : Document) :
    m (Except SaveError Unit) :=
  match document.write? (Format.ofPath path) c with
  | none => return .error .noText
  | some text => saveText compressor path text

/-- Saves a document, all of it or nothing. -/
def save (path : String) (c : Config) (document : Document) : m (Except SaveError Unit) :=
  document.saveWith .stored path c

end Document

end PartialResponse
