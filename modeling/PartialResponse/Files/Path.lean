/-!
# PartialResponse.Files.Path — paths

A path is a sequence of names with slashes between them. Two slashes count as one,
a point stands for the directory itself and two points for the one above it. Paths
are texts: one whose bytes are no text is left out.
-/

namespace PartialResponse.Files

/-! ## Limits -/

/-- Whether a name is too long for a file: names have at most 255 bytes. -/
def isLongName (name : String) : Bool :=
  255 < name.utf8ByteSize

/-- Whether a path is too long to be looked up: paths have at most 4095 bytes. -/
def isLongPath (path : String) : Bool :=
  4095 < path.utf8ByteSize

/-- Whether a path can be looked up, apart from its length: it holds no zero. -/
def isLegal (path : String) : Bool :=
  !path.toList.contains '\x00'

/-! ## Parts -/

/-- What stands between the slashes of a path. -/
def pieces (path : String) : List String :=
  (path.toList.splitOn '/').map .ofList

/-- The names of a path, points included. -/
def names (path : String) : List String :=
  (pieces path).filter (!·.isEmpty)

/-- Whether a path starts at the root of all files. -/
def isAbsolute (path : String) : Bool :=
  path.toList.head? == some '/'

/-- Whether a path can only stand for a directory, as its last character is a slash. -/
def endsInSlash (path : String) : Bool :=
  path.toList.getLast? == some '/'

/-- The names of a path without single points. -/
def steps (path : String) : List String :=
  (names path).filter (· != ".")

/-- The path with the given names. -/
def join (names : List String) : String :=
  "/".intercalate names

/-- The path of something in a directory with the given path. -/
def inside (directory name : String) : String :=
  if endsInSlash directory then directory ++ name else directory ++ "/" ++ name

/-- The name of the file that a path stands for. -/
def fileName? (path : String) : Option String :=
  (steps path).getLast?.filter (· != "..")

/-- The ending of a file name, behind its last point. A point in front of a name starts no
ending. -/
def extension? (path : String) : Option String := do
  let name := (← fileName? path).toList
  let ending := (name.reverse.takeWhile (· != '.')).reverse
  let stem := name.take (name.length - ending.length - 1)
  if stem.isEmpty then none else some (.ofList ending)

/-! ## Directories above -/

/-- Whether a piece of a path leads nowhere. -/
def isIdle (piece : String) : Bool :=
  piece.isEmpty || piece == "."

/-- The paths that a path leads through, itself first. The path consists of a first piece and of
others, which are given backwards. -/
def trail (first : String) : List String → List String
  | [] => [if first.isEmpty then "/" else first]
  | piece :: before =>
    if isIdle piece then trail first before
    else join (first :: (piece :: before).reverse) :: trail first before

/-- The path, then those of the directories above it that it leads through. What stands behind its
last name stays there. -/
def ancestors (path : String) : List String :=
  if path.isEmpty then []
  else
    match pieces path with
    | [] => []
    | first :: more => path :: (trail first more.reverse).tail

/-- The path of the directory above. That of the working directory is empty here; above the root
there is none. -/
def parent? (path : String) : Option String :=
  match ancestors path with
  | [] => none
  | [_] => if isAbsolute path then none else some ""
  | _ :: above :: _ => some above

/-- The path of the directory that holds what a path stands for. -/
def directory (path : String) : String :=
  ((parent? path).filter (!·.isEmpty)).getD "."

end PartialResponse.Files
