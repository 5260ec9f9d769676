import Mathlib.Data.List.Basic
import Mathlib.Tactic.SplitIfs
import PartialResponse.Files.Disk

/-!
# PartialResponse.Proofs.Files.Walking — where paths lead

Walking a path only looks at directories, so a path that leads somewhere leads to
the same place on every disk that has these directories (`KeepsDirectories.place`).
The path that is made up for something in a directory has the names of the
directory and one more (`names_inside`).
-/

namespace PartialResponse

namespace Files

/-! ## Paths of things in directories -/

/-- A slash separates the pieces in front of it from those behind it. -/
theorem pieces_append_slash {path : String} (front behind : String)
    (h : path.toList = front.toList ++ '/' :: behind.toList) :
    pieces path = pieces front ++ pieces behind := by
  rw [pieces, h, List.splitOn_append_cons_self, List.map_append, pieces, pieces]

/-- A name is one piece. -/
theorem pieces_plain {name : String} (hplain : '/' ∉ name.toList) : pieces name = [name] := by
  rw [pieces, List.splitOn_eq_singleton hplain, List.map_singleton, String.ofList_toList]

/-- The names of something in a directory are those of the directory and its own. -/
theorem names_inside (directory : String) {name : String} (hplain : '/' ∉ name.toList)
    (hnonempty : name ≠ "") : names (inside directory name) = names directory ++ [name] := by
  have hown : names name = [name] := by
    simp [names, pieces_plain hplain, hnonempty]
  have hapart (front : String) : names (front ++ "/" ++ name) = names front ++ [name] := by
    rw [← hown, names, pieces_append_slash front name (by simp),
      List.filter_append]
    rfl
  unfold inside
  split
  · -- the slash at the end of the directory's path is the one in front of the name
    next hslash =>
    have hlast : directory.toList.getLast? = some '/' := by simpa [endsInSlash] using hslash
    obtain ⟨front, heq⟩ := List.getLast?_eq_some_iff.mp hlast
    have hwhole : directory = String.ofList front ++ "/" := by
      apply String.toList_inj.mp
      simp [heq]
    have hbare : names directory = names (.ofList front) := by
      rw [hwhole, names, pieces_append_slash (.ofList front) "" (by simp),
        List.filter_append]
      simp [names, pieces_plain]
    rw [hbare, hwhole]
    exact hapart _
  · exact hapart directory

/-- What is in a directory with a path from the root has one, too. -/
theorem isAbsolute_inside {directory : String} (habsolute : isAbsolute directory = true)
    (name : String) : isAbsolute (inside directory name) = true := by
  obtain ⟨rest, heq⟩ : ∃ rest, directory.toList = '/' :: rest := by
    simpa [isAbsolute, List.head?_eq_some_iff] using habsolute
  unfold inside
  split <;> simp [isAbsolute, heq]

/-- A name does not end in a slash, so neither does a path with it. -/
theorem endsInSlash_inside (directory : String) {name : String} (hplain : '/' ∉ name.toList)
    (hnonempty : name ≠ "") : endsInSlash (inside directory name) = false := by
  have hlast (front : String) : endsInSlash (front ++ name) = false := by
    have hne : name.toList ≠ [] := by simpa using hnonempty
    rw [endsInSlash, String.toList_append, List.getLast?_append_of_ne_nil _ hne,
      List.getLast?_eq_some_getLast hne]
    have hother : name.toList.getLast hne ≠ '/' := fun heq => hplain (heq ▸ List.getLast_mem hne)
    simpa using hother
  unfold inside
  split
  · exact hlast directory
  · exact hlast (directory ++ "/")

end Files

namespace Disk

/-! ## Places -/

/-- Where a path is walked from. -/
def start (disk : Disk) (path : String) : Location :=
  if Files.isAbsolute path then [] else disk.here

/-- The place that names lead to from a directory. -/
inductive Leads (disk : Disk) (start : Location) : List String → Place → Prop
  | here : Leads disk start [] (.known start)
  | known {before : List String} {name : String} {location : Location} :
      (name = "." ∨ name = "..") → disk.walk (before ++ [name]) start = .ok location →
      Leads disk start (before ++ [name]) (.known location)
  | named {before : List String} {name : String} {location : Location} :
      ¬(name = "." ∨ name = "..") → disk.walk before start = .ok location →
      Leads disk start (before ++ [name]) (.named location name)

/-- Whether a path can be looked up at all. -/
structure Possible (path : String) : Prop where
  legal : Files.isLegal path = true
  short : Files.isLongPath path = false
  nonempty : path.isEmpty = false

/-- What leads somewhere can be looked up. -/
theorem possible_of_place {disk : Disk} {path : String} {place : Place}
    (h : disk.place path = .ok place) : Possible path := by
  simp only [Disk.place, bind, Except.bind, throw, throwThe, MonadExceptOf.throw] at h
  by_cases hlegal : Files.isLegal path = true
  · by_cases hlong : Files.isLongPath path = true
    · simp [hlegal, hlong] at h
    · by_cases hempty : path.isEmpty = true
      · simp [hlegal, hlong, hempty] at h
      · exact ⟨hlegal, by simpa using hlong, by simpa using hempty⟩
  · simp [hlegal] at h

/-- A path that can be looked up is walked by its names. -/
theorem place_of_possible (disk : Disk) {path : String} (hpossible : Possible path) :
    disk.place path = match (Files.names path).getLast? with
      | none => .ok (.known (disk.start path))
      | some name =>
        if name = "." ∨ name = ".." then
          (disk.walk (Files.names path) (disk.start path)).map .known
        else (disk.walk (Files.names path).dropLast (disk.start path)).map (.named · name) := by
  simp only [place, hpossible.legal, hpossible.short, hpossible.nonempty, bind, Except.bind, pure,
    Except.pure, Bool.not_true, Bool.false_eq_true, if_false]
  rfl

/-- A path leads somewhere if it can be looked up and its names lead there. -/
theorem place_eq_ok_iff {disk : Disk} {path : String} {place : Place} :
    disk.place path = .ok place ↔
      Possible path ∧ disk.Leads (disk.start path) (Files.names path) place := by
  constructor
  · intro h
    have hpossible := possible_of_place h
    rw [place_of_possible disk hpossible] at h
    refine ⟨hpossible, ?_⟩
    -- either there are no names, or a last one is walked to
    generalize Files.names path = names at h ⊢
    rcases List.eq_nil_or_concat names with rfl | ⟨before, name, rfl⟩
    · cases h
      exact .here
    · simp only [List.concat_eq_append, List.getLast?_concat, List.dropLast_concat] at h
      split_ifs at h with hpoints
      · cases hwalk : disk.walk (before ++ [name]) (disk.start path) with
        | error e => simp [hwalk, Except.map] at h
        | ok location =>
          simp only [hwalk, Except.map, Except.ok.injEq] at h
          subst h
          exact List.concat_eq_append ▸ .known hpoints hwalk
      · cases hwalk : disk.walk before (disk.start path) with
        | error e => simp [hwalk, Except.map] at h
        | ok location =>
          simp only [hwalk, Except.map, Except.ok.injEq] at h
          subst h
          exact List.concat_eq_append ▸ .named hpoints hwalk
  · rintro ⟨hpossible, hleads⟩
    rw [place_of_possible disk hpossible]
    generalize Files.names path = names at hleads ⊢
    cases hleads with
    | here => rfl
    | known hpoints hwalk => simp [hpoints, hwalk, Except.map]
    | named hproper hwalk => simp [hproper, hwalk, Except.map]

/-! ## Disks with the same directories -/

variable {disk disk' : Disk}

/-- The directories of the first disk are there on the second one, and the same is the working
directory. -/
structure KeepsDirectories (disk disk' : Disk) : Prop where
  here : disk'.here = disk.here
  find : ∀ location, disk.find? location = some .directory → disk'.find? location = some .directory

/-- Names that lead to a directory lead to it where the directories are kept. -/
theorem KeepsDirectories.walk (h : KeepsDirectories disk disk') {names : List String}
    {here location : Location} (hleads : disk.walk names here = .ok location) :
    disk'.walk names here = .ok location := by
  induction names generalizing here with
  | nil => exact hleads
  | cons name rest ih =>
    unfold Disk.walk at hleads ⊢
    split_ifs at hleads ⊢ with point above long
    · exact ih hleads
    · exact ih hleads
    · -- the walk goes on only from a directory
      cases hfound : disk.find? (here ++ [name]) with
      | none => simp [hfound] at hleads
      | some entry =>
        cases entry with
        | directory =>
          rw [hfound] at hleads
          rw [h.find _ hfound]
          exact ih hleads
        | _ => simp [hfound] at hleads

/-- A path that leads somewhere leads there where the directories are kept. -/
theorem KeepsDirectories.place (h : KeepsDirectories disk disk') {path : String} {place : Place}
    (hleads : disk.place path = .ok place) : disk'.place path = .ok place := by
  obtain ⟨hpossible, hleads⟩ := place_eq_ok_iff.mp hleads
  refine place_eq_ok_iff.mpr ⟨hpossible, ?_⟩
  have hstart : disk'.start path = disk.start path := by rw [Disk.start, Disk.start, h.here]
  rw [hstart]
  generalize Files.names path = names at hleads ⊢
  cases hleads with
  | here => exact .here
  | known hpoints hwalk => exact .known hpoints (h.walk hwalk)
  | named hproper hwalk => exact .named hproper (h.walk hwalk)

/-- The same directories are there, and the same is the working directory. -/
structure SameDirectories (disk disk' : Disk) : Prop where
  here : disk'.here = disk.here
  find : ∀ location, disk'.find? location = some .directory ↔ disk.find? location = some .directory

/-- It does not matter which disk is the first. -/
theorem SameDirectories.symm (h : SameDirectories disk disk') : SameDirectories disk' disk :=
  ⟨h.here.symm, fun location => (h.find location).symm⟩

/-- A path that leads somewhere leads there on both disks. -/
theorem SameDirectories.place (h : SameDirectories disk disk') {path : String} {place : Place}
    (hleads : disk.place path = .ok place) : disk'.place path = .ok place :=
  KeepsDirectories.place ⟨h.here, fun location => (h.find location).mpr⟩ hleads

/-- A file where no directory is changes no directories. -/
theorem sameDirectories_put {location : Location} (h : disk.find? location ≠ some .directory)
    (bytes : List UInt8) : SameDirectories disk (disk.put location (.file bytes)) := by
  -- the root is a directory
  have hinner : location ≠ [] := by
    rintro rfl
    exact h rfl
  refine ⟨rfl, fun other => ?_⟩
  by_cases hsame : other = location <;> simp [hinner, hsame, h]

end Disk

end PartialResponse
