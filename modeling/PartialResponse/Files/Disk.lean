import PartialResponse.Files.Access

/-!
# PartialResponse.Files.Disk — a disk in memory

A disk is a table of files and directories, of which one is the working directory.
A path is walked from there, or from the root, name by name, and every name but
the last has to be that of a directory. A disk also has two devices: one that is
always empty, and one that brings the standard input. What is written to the
standard output is kept with the disk.

Links and permissions are left out, and so is a path of the standard output.
-/

namespace PartialResponse

/-- Where something stands: the names from the root down. -/
abbrev Location := List String

/-- What can stand at a location. -/
inductive Entry where
  | file (bytes : List UInt8)
  | directory
  /-- What is written there is lost, and nothing can be read. -/
  | void
  /-- The standard input. -/
  | input
deriving DecidableEq

/-- A disk. -/
structure Disk where
  /-- The files and directories. -/
  entries : List (Location × Entry)
  /-- The working directory. -/
  here : Location
  /-- What is left of the standard input. -/
  input : List UInt8
  /-- How many bytes a file can have, if there is a limit. -/
  room : Option Nat
  /-- What has been written to the standard output. -/
  shown : List UInt8

namespace Disk

/-- The directories that every disk has. -/
def systemDirectories : List Location :=
  [["bin"], ["dev"], ["dev", "fd"], ["etc"], ["home"], ["lib"], ["opt"], ["proc"], ["proc", "self"],
    ["proc", "self", "fd"], ["root"], ["run"], ["sbin"], ["sys"], ["tmp"], ["usr"], ["var"]]

/-- The devices of a disk. The standard input has several names. -/
def devices : List (Location × Entry) :=
  [(["dev", "null"], .void), (["dev", "stdin"], .input), (["dev", "fd", "0"], .input),
    (["proc", "self", "fd", "0"], .input)]

/-- The working directory that disks start with. -/
def workplace : Location := ["tmp", ".workplace"]

/-- A disk with an empty working directory, no input, and room for everything. -/
def empty : Disk :=
  ⟨devices ++ (systemDirectories ++ [workplace]).map (·, .directory), workplace, [], none, []⟩

/-- What stands at a location. The root is always there. -/
def find? (disk : Disk) (location : Location) : Option Entry :=
  if location = [] then some .directory else disk.entries.lookup location

/-- The entries with one more, in place of what stands at its location. -/
def putEntry (location : Location) (entry : Entry) :
    List (Location × Entry) → List (Location × Entry)
  | [] => [(location, entry)]
  | (l, e) :: rest =>
    if l = location then (location, entry) :: rest else (l, e) :: putEntry location entry rest

/-- The disk with an entry, in place of what stands at its location. -/
def put (disk : Disk) (location : Location) (entry : Entry) : Disk :=
  { disk with entries := putEntry location entry disk.entries }

/-- The disk without what stands at a location. -/
def erase (disk : Disk) (location : Location) : Disk :=
  { disk with entries := disk.entries.filter (·.1 ≠ location) }

/-- Looking up in entries, by equality of locations. -/
theorem lookup_cons (location other : Location) (entry : Entry)
    (rest : List (Location × Entry)) :
    ((location, entry) :: rest).lookup other =
      if other = location then some entry else rest.lookup other := by
  rw [List.lookup_cons]
  cases h : other == location with
  | true => rw [if_pos (beq_iff_eq.1 h)]
  | false => rw [if_neg (beq_eq_false_iff_ne.1 h)]

/-- The entry that is put is found, and the others are as before. By induction on the entries. -/
theorem lookup_putEntry (location other : Location) (entry : Entry)
    (entries : List (Location × Entry)) :
    (putEntry location entry entries).lookup other =
      if other = location then some entry else entries.lookup other := by
  induction entries with
  | nil => exact lookup_cons location other entry []
  | cons first rest ih =>
    obtain ⟨l, e⟩ := first
    by_cases hl : l = location
    · subst hl
      by_cases ho : other = l <;> simp [putEntry, lookup_cons, ho]
    · by_cases ho : other = l
      · subst ho
        simp [putEntry, hl]
      · simp [putEntry, lookup_cons, hl, ho, ih]

/-- Putting an entry changes what stands at its location, and nothing else. -/
@[simp, grind =]
theorem find?_put (disk : Disk) {location : Location} (h : location ≠ []) (entry : Entry)
    (other : Location) :
    (disk.put location entry).find? other =
      if other = location then some entry else disk.find? other := by
  by_cases ho : other = []
  · subst ho
    simp [find?, Ne.symm h]
  · simp [find?, ho, put, lookup_putEntry]

/-! ## Walking -/

/-- The directory that names lead to from a directory. The one above the root is the root. -/
def walk (disk : Disk) : List String → Location → Except FileError Location
  | [], here => .ok here
  | name :: rest, here =>
    if name = "." then walk disk rest here
    -- there are no links, so the directory above is the one whose name is in front
    else if name = ".." then walk disk rest here.dropLast
    else if Files.isLongName name then .error .nameTooLong
    else
      match disk.find? (here ++ [name]) with
      | none => .error .notFound
      | some .directory => walk disk rest (here ++ [name])
      | some _ => .error .notDirectory

/-- What a path stands for. -/
inductive Place where
  /-- A directory that is there: the root, or one with points for its last name. -/
  | known (location : Location)
  /-- Something with a name in a directory. There need not be anything. -/
  | named (directory : Location) (name : String)

/-- Where the place is. -/
def Place.location : Place → Location
  | known location => location
  | named directory name => directory ++ [name]

/-- The place that a path leads to. Whether its last name is too long is left open. -/
def place (disk : Disk) (path : String) : Except FileError Place := do
  if !Files.isLegal path then throw .invalidPath
  if Files.isLongPath path then throw .nameTooLong
  if path.isEmpty then throw .notFound
  let start := if Files.isAbsolute path then [] else disk.here
  let names := Files.names path
  -- only what stands in front of the last name is walked
  match names.getLast? with
  | none => return .known start
  | some name =>
    if name = "." ∨ name = ".." then return .known (← disk.walk names start)
    else return .named (← disk.walk names.dropLast start) name

/-- What stands where a path leads to, if anything does. -/
def look (disk : Disk) (path : String) : Except FileError (Option Entry) := do
  match ← disk.place path with
  | .known _ => return some .directory
  | .named directory name =>
    if Files.isLongName name then throw .nameTooLong
    return disk.find? (directory ++ [name])

/-- What stands where a path leads to. Only a directory can have a slash behind its name. -/
def entry (disk : Disk) (path : String) : Except FileError Entry := do
  match ← disk.look path with
  | none => throw .notFound
  | some .directory => return .directory
  | some entry => if Files.endsInSlash path then throw .notDirectory else return entry

/-! ## Operations -/

/-- Takes the standard input. -/
def takeInput (disk : Disk) : List UInt8 × Disk :=
  (disk.input, { disk with input := [] })

/-- The bytes of a file. Those of the standard input are there only once. -/
def contents (path : String) (disk : Disk) : Except FileError (List UInt8) × Disk :=
  match disk.entry path with
  | .error e => (.error e, disk)
  | .ok (.file bytes) => (.ok bytes, disk)
  | .ok .directory => (.error .isDirectory, disk)
  | .ok .void => (.ok [], disk)
  | .ok .input => (.ok disk.takeInput.1, disk.takeInput.2)

/-- Whether there is a file or a directory. -/
def isThere (disk : Disk) (path : String) : Bool :=
  (disk.entry path).toOption.isSome

/-- Whether there is a directory. -/
def isDirectory (disk : Disk) (path : String) : Bool :=
  (disk.entry path).toOption == some .directory

/-- Makes a directory in one that is there. -/
def makeDirectory (path : String) (disk : Disk) : Except FileError Unit × Disk :=
  match disk.place path, disk.look path with
  | .error e, _ => (.error e, disk)
  | _, .error e => (.error e, disk)
  | .ok place, .ok none => (.ok (), disk.put place.location .directory)
  | _, .ok (some _) => (.error .alreadyExists, disk)

/-- Gives a file new bytes. If there is not enough room, it gets those that fit. -/
def overwrite (path : String) (bytes : List UInt8) (disk : Disk) :
    Except FileError Unit × Disk :=
  match disk.place path with
  | .error e => (.error e, disk)
  | .ok place =>
    if Files.endsInSlash path then (.error .isDirectory, disk)
    else
      match disk.look path with
      | .error e => (.error e, disk)
      | .ok (some .directory) => (.error .isDirectory, disk)
      -- a device takes the bytes and keeps none
      | .ok (some .void) => (.ok (), disk)
      | .ok (some .input) => (.ok (), disk)
      | .ok _ =>
        match disk.room with
        | none => (.ok (), disk.put place.location (.file bytes))
        | some room =>
          if bytes.length ≤ room then (.ok (), disk.put place.location (.file bytes))
          else (.error .noSpace, disk.put place.location (.file (bytes.take room)))

/-- Adds bytes at the end of a file. If there is not enough room, it gets those that fit. -/
def append (path : String) (bytes : List UInt8) (disk : Disk) : Except FileError Unit × Disk :=
  match disk.entry path with
  | .ok (.file old) => disk.overwrite path (old ++ bytes)
  | _ => disk.overwrite path bytes

/-- A name for a temporary file; each number gives another one. -/
def temporaryName (n : Nat) : String :=
  ".tmp" ++ .ofList (.replicate (n + 6) 't')

/-- A name that is free in a directory. There are more names to choose from than entries. -/
def freshName (disk : Disk) (directory : Location) : String :=
  let names := (List.range (disk.entries.length + 1)).map temporaryName
  (names.find? fun name => (disk.find? (directory ++ [name])).isNone).getD (temporaryName 0)

/-- The path of a directory from the root, as far as the path of the working directory is known. -/
def absolutePath (disk : Disk) (path : String) : String :=
  if Files.isAbsolute path then path else Files.inside ("/" ++ Files.join disk.here) path

/-- Makes an empty file with a fresh name in a directory. Its path starts at the root. -/
def createTemporary (directory : String) (disk : Disk) : Except FileError String × Disk :=
  let start := disk.absolutePath directory
  match disk.walk (Files.names start) [] with
  | .error e => (.error e, disk)
  | .ok location =>
    let path := Files.inside start (disk.freshName location)
    match disk.overwrite path [] with
    | (.ok (), disk) => (.ok path, disk)
    | (.error e, disk) => (.error e, disk)

/-- Moves a file. Nothing can be moved to where a path ends in points. -/
def replace (source target : String) (disk : Disk) : Except FileError Unit × Disk :=
  match disk.place source, disk.entry source with
  | .ok old, .ok (.file bytes) =>
    match disk.place target, disk.look target with
    | .error e, _ => (.error e, disk)
    | _, .error e => (.error e, disk)
    | .ok (.known _), _ => (.error .other, disk)
    | .ok new, .ok found =>
      -- a file takes the place of a file, not that of a directory
      if found = some .directory then (.error .isDirectory, disk)
      else if Files.endsInSlash target then (.error .notDirectory, disk)
      else (.ok (), (disk.erase old.location).put new.location (.file bytes))
  | .error e, _ => (.error e, disk)
  | _, .error e => (.error e, disk)
  | _, .ok _ => (.error .other, disk)

/-- Removes a file. -/
def remove (path : String) (disk : Disk) : Disk :=
  match disk.place path, disk.entry path with
  | .ok place, .ok (.file _) => disk.erase place.location
  | _, _ => disk

/-- Writes to the standard output, which takes everything. -/
def output (bytes : List UInt8) (disk : Disk) : Except OutputError Unit × Disk :=
  (.ok (), { disk with shown := disk.shown ++ bytes })

instance : MonadFiles (StateM Disk) where
  contents path := modifyGet (Disk.contents path)
  isThere path := return (← get).isThere path
  isDirectory path := return (← get).isDirectory path
  makeDirectory path := modifyGet (Disk.makeDirectory path)
  overwrite path bytes := modifyGet (Disk.overwrite path bytes)
  append path bytes := modifyGet (Disk.append path bytes)
  createTemporary directory := modifyGet (Disk.createTemporary directory)
  replace source target := modifyGet (Disk.replace source target)
  remove path := modify (Disk.remove path)
  output bytes := modifyGet (Disk.output bytes)

/-- What follows an operation starts with its result and in the state that it leaves. -/
theorem run_bind {σ α β : Type} {first : StateM σ α} {state state' : σ} {a : α}
    (h : first.run state = (a, state')) (next : α → StateM σ β) :
    (first >>= next).run state = (next a).run state' := by
  show (next (first.run state).1).run (first.run state).2 = _
  rw [h]

/-- A file that is there can be read, and reading it changes nothing. -/
theorem run_contents {disk : Disk} {path : String} {bytes : List UInt8}
    (h : disk.entry path = .ok (.file bytes)) :
    (MonadFiles.contents path : StateM Disk (Except FileError (List UInt8))).run disk =
      (.ok bytes, disk) := by
  show disk.contents path = _
  simp only [contents, h]

/-! ## The working directory -/

/-- What stands below the working directory, with the names from there. -/
def below (disk : Disk) : List (Location × Entry) :=
  disk.entries.filterMap fun (location, entry) =>
    if disk.here.isPrefixOf location ∧ location ≠ disk.here then
      some (location.drop disk.here.length, entry)
    else none

/-- The paths of all that stands below the working directory, sorted. Those of directories end with a
slash. -/
def paths (disk : Disk) : List String :=
  (disk.below.map fun (location, entry) =>
    Files.join location ++ (if entry = .directory then "/" else "")).mergeSort

end Disk

end PartialResponse
