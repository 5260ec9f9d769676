import Mathlib.Data.List.Nodup
import Mathlib.Data.List.Perm.Subperm
import PartialResponse.Proofs.Files.Walking

/-!
# PartialResponse.Proofs.Files.Temporary — temporary files

The name that is made up for a temporary file is free: there are more names to
choose from than entries. So as long as the temporary file is there, the disk is
the one before with a file at a free location. Bytes added to it change nothing
else, removing it gives the disk before, and moving it gives the disk before with
the file at the target.
-/

namespace PartialResponse.Disk

/-! ## Names -/

/-- Names get longer with their numbers. -/
@[simp]
theorem length_temporaryName (n : Nat) : (temporaryName n).toList.length = n + 10 := by
  simp [temporaryName]

/-- Names with different numbers differ, as their lengths do. -/
theorem temporaryName_injective : Function.Injective temporaryName := by
  intro m n heq
  have hlengths := congrArg (fun name : String => name.toList.length) heq
  simp only [length_temporaryName] at hlengths
  omega

/-- What stands at a location has an entry. -/
theorem mem_entries_of_find? {disk : Disk} {location : Location} (hinner : location ≠ [])
    (h : disk.find? location ≠ none) : location ∈ disk.entries.map (·.1) := by
  rw [find?, if_neg hinner] at h
  obtain ⟨entry, hmem, hsame⟩ := List.lookup_isSome_iff.mp (Option.isSome_iff_ne_none.mpr h)
  exact List.mem_map.mpr ⟨entry, hmem, (eq_of_beq hsame).symm⟩

/-- Not all names that come into question are taken, since there are more of them than entries. -/
theorem exists_free (disk : Disk) (directory : Location) :
    ∃ name ∈ (List.range (disk.entries.length + 1)).map temporaryName,
      disk.find? (directory ++ [name]) = none := by
  -- otherwise each name has an entry, and there is one name more than entries
  by_contra hallTaken
  have hdistinct : ((List.range (disk.entries.length + 1)).map
      fun n => directory ++ [temporaryName n]).Nodup := by
    apply List.nodup_range.map
    intro m n heq
    exact temporaryName_injective (by simpa using heq)
  have htaken : ((List.range (disk.entries.length + 1)).map
      fun n => directory ++ [temporaryName n]) ⊆ disk.entries.map (·.1) := by
    intro location hmem
    obtain ⟨n, hn, rfl⟩ := List.mem_map.mp hmem
    apply mem_entries_of_find? (by simp)
    intro hfree
    exact hallTaken ⟨_, List.mem_map_of_mem hn, hfree⟩
  -- different locations, all of them taken, are no more than the entries
  have hcount := (List.subperm_of_subset hdistinct htaken).length_le
  simp only [List.length_map, List.length_range] at hcount
  omega

/-- The name for a temporary file is not taken. -/
theorem freshName_free (disk : Disk) (directory : Location) :
    ∃ n, disk.freshName directory = temporaryName n ∧
      disk.find? (directory ++ [temporaryName n]) = none := by
  obtain ⟨name, hmem, hfree⟩ := exists_free disk directory
  obtain ⟨chosen, hfound⟩ : ∃ chosen, ((List.range (disk.entries.length + 1)).map temporaryName).find?
      (fun name => (disk.find? (directory ++ [name])).isNone) = some chosen :=
    Option.isSome_iff_exists.mp (List.find?_isSome.mpr ⟨name, hmem, by simp [hfree]⟩)
  obtain ⟨n, _, rfl⟩ := List.mem_map.mp (List.mem_of_find?_eq_some hfound)
  refine ⟨n, ?_, by simpa using List.find?_some hfound⟩
  show (List.find? _ _).getD _ = _
  rw [hfound, Option.getD_some]

/-- No name that is made up is as short as this one. -/
theorem temporaryName_ne {n : Nat} {name : String} (h : name.toList.length < 10) :
    temporaryName n ≠ name := by
  rintro rfl
  rw [length_temporaryName] at h
  omega

/-- No name that is made up has a slash in it. -/
theorem temporaryName_plain (n : Nat) : '/' ∉ (temporaryName n).toList := by
  simp [temporaryName]

/-! ## Entries put and erased -/

/-- Of two entries put at one location the later one stays. -/
theorem putEntry_putEntry (location : Location) (entry entry' : Entry)
    (entries : List (Location × Entry)) :
    putEntry location entry' (putEntry location entry entries) = putEntry location entry' entries := by
  induction entries with
  | nil => simp [putEntry]
  | cons first rest ih =>
    by_cases hsame : first.1 = location
    · simp [putEntry, hsame]
    · simp [putEntry, hsame, ih]

/-- Of two files put at one location the later one stays. -/
@[simp]
theorem put_put (disk : Disk) (location : Location) (entry entry' : Entry) :
    (disk.put location entry).put location entry' = disk.put location entry' := by
  simp [put, putEntry_putEntry]

/-- Putting an entry leaves those at other locations. -/
theorem filter_putEntry (location : Location) (entry : Entry) (entries : List (Location × Entry)) :
    (putEntry location entry entries).filter (·.1 ≠ location) =
      entries.filter (·.1 ≠ location) := by
  induction entries with
  | nil => simp [putEntry]
  | cons first rest ih =>
    by_cases hsame : first.1 = location
    · simp [putEntry, hsame]
    · simpa [putEntry, hsame] using ih

/-- What is put at a free location and erased again leaves no trace. -/
theorem erase_put {disk : Disk} {location : Location} (hfree : disk.find? location = none)
    (entry : Entry) : (disk.put location entry).erase location = disk := by
  have hinner : location ≠ [] := by
    rintro rfl
    cases hfree
  have habsent : ∀ e ∈ disk.entries, e.1 ≠ location := by
    rw [find?, if_neg hinner, List.lookup_eq_none_iff] at hfree
    intro e hmem hsame
    simpa [hsame] using hfree e hmem
  rw [erase, put, filter_putEntry, List.filter_eq_self.mpr (by simpa using habsent)]

/-! ## Paths of files -/

/-- What a path shows that leads to a name in a directory. -/
theorem look_named {disk : Disk} {path : String} {directory : Location} {name : String}
    (hleads : disk.place path = .ok (.named directory name)) :
    disk.look path = if Files.isLongName name then .error .nameTooLong
      else .ok (disk.find? (directory ++ [name])) := by
  rw [Disk.look, hleads]
  rfl

/-- A path leads to where a file can be put. -/
structure Target (disk : Disk) (path : String) (directory : Location) (name : String) : Prop where
  leads : disk.place path = .ok (.named directory name)
  short : Files.isLongName name = false
  plain : Files.endsInSlash path = false
  notDirectory : disk.find? (directory ++ [name]) ≠ some .directory

namespace Target

variable {disk : Disk} {path : String} {directory : Location} {name : String}

/-- A path leads to the same place on a disk with the same directories. -/
theorem congr {disk' : Disk} (ht : Target disk path directory name)
    (hsame : SameDirectories disk disk') : Target disk' path directory name where
  leads := hsame.place ht.leads
  short := ht.short
  plain := ht.plain
  notDirectory h := ht.notDirectory ((hsame.find _).mp h)

/-- A file that is put there does not keep the path from leading there. -/
theorem put (ht : Target disk path directory name) (bytes : List UInt8) :
    Target (disk.put (directory ++ [name]) (.file bytes)) path directory name :=
  ht.congr (sameDirectories_put ht.notDirectory bytes)

/-- The path shows what stands at the location. -/
theorem look (ht : Target disk path directory name) :
    disk.look path = .ok (disk.find? (directory ++ [name])) := by
  rw [look_named ht.leads, if_neg (by simp [ht.short])]

/-- The path stands for the file at the location. -/
theorem entry (ht : Target disk path directory name) {bytes : List UInt8}
    (hfound : disk.find? (directory ++ [name]) = some (.file bytes)) :
    disk.entry path = .ok (.file bytes) := by
  rw [Disk.entry, ht.look, hfound]
  show (if Files.endsInSlash path = true then _ else _) = _
  rw [if_neg (by simp [ht.plain])]
  rfl

/-- What has been put there is what the path stands for. -/
theorem entry_put (ht : Target disk path directory name) (bytes : List UInt8) :
    (disk.put (directory ++ [name]) (.file bytes)).entry path = .ok (.file bytes) :=
  (ht.put bytes).entry (by simp)

/-- A file that is there or can be made gets the new bytes, or those for which there is room. -/
theorem overwrite (ht : Target disk path directory name)
    (hisFile : ∀ entry ∈ disk.find? (directory ++ [name]), ∃ old, entry = .file old)
    (bytes : List UInt8) :
    disk.overwrite path bytes =
      match disk.room with
      | none => (.ok (), disk.put (directory ++ [name]) (.file bytes))
      | some room =>
        if bytes.length ≤ room then (.ok (), disk.put (directory ++ [name]) (.file bytes))
        else (.error .noSpace, disk.put (directory ++ [name]) (.file (bytes.take room))) := by
  rw [Disk.overwrite, ht.leads, ht.look]
  simp only [ht.plain, Bool.false_eq_true, if_false, Place.location]
  cases hfound : disk.find? (directory ++ [name]) with
  | none => rfl
  | some entry =>
    obtain ⟨old, rfl⟩ := hisFile entry hfound
    rfl

/-- Adding bytes to a file changes that file only. -/
theorem append (ht : Target disk path directory name) (old bytes : List UInt8) :
    ∃ result written,
      (disk.put (directory ++ [name]) (.file old)).append path bytes =
        (result, disk.put (directory ++ [name]) (.file written)) ∧
      (result = .ok () → written = old ++ bytes) := by
  have hisFile : ∀ entry ∈ (disk.put (directory ++ [name]) (.file old)).find? (directory ++ [name]),
      ∃ old, entry = .file old := by
    intro entry hfound
    obtain rfl : Entry.file old = entry := by simpa using hfound
    exact ⟨old, rfl⟩
  rw [Disk.append, ht.entry_put old]
  simp only [(ht.put old).overwrite hisFile, put_put]
  split
  · exact ⟨_, _, rfl, fun _ => rfl⟩
  · split
    · exact ⟨_, _, rfl, fun _ => rfl⟩
    · exact ⟨_, _, rfl, nofun⟩

end Target

/-! ## Temporary files -/

/-- A path leads to where nothing is yet, but a file can be. -/
structure Fresh (disk : Disk) (path : String) (directory : Location) (name : String) : Prop extends
    Target disk path directory name where
  free : disk.find? (directory ++ [name]) = none

/-- The path of a directory is made absolute before a name is added to it. -/
@[simp]
theorem isAbsolute_absolutePath (disk : Disk) (path : String) :
    Files.isAbsolute (disk.absolutePath path) = true := by
  unfold absolutePath
  split
  · assumption
  · apply Files.isAbsolute_inside
    simp [Files.isAbsolute]

/-- Nothing is written where a path does not lead. -/
theorem overwrite_of_impossible (disk : Disk) {path : String} (himpossible : ¬Possible path)
    (bytes : List UInt8) : ∃ e, disk.overwrite path bytes = (.error e, disk) := by
  cases hplaced : disk.place path with
  | error e => exact ⟨e, by rw [overwrite, hplaced]⟩
  | ok place => exact absurd (possible_of_place hplaced) himpossible

/-- The path that is made up for a temporary file leads into its directory. -/
theorem place_inside {disk : Disk} {start : String} {location : Location}
    (habsolute : Files.isAbsolute start = true) (hwalked : disk.walk (Files.names start) [] = .ok location)
    {n : Nat} (hpossible : Possible (Files.inside start (temporaryName n))) :
    disk.place (Files.inside start (temporaryName n)) = .ok (.named location (temporaryName n)) := by
  have hproper : ¬(temporaryName n = "." ∨ temporaryName n = "..") := by
    rintro (heq | heq)
    · exact temporaryName_ne (by decide) heq
    · exact temporaryName_ne (by decide) heq
  refine place_eq_ok_iff.mpr ⟨hpossible, ?_⟩
  rw [Files.names_inside start (temporaryName_plain n) (temporaryName_ne (by decide)), Disk.start,
    if_pos (Files.isAbsolute_inside habsolute _)]
  exact .named hproper hwalked

/-- A temporary file is made at a fresh path, or nothing happens. -/
theorem createTemporary_cases (disk : Disk) (directory : String) :
    (∃ e, disk.createTemporary directory = (.error e, disk)) ∨
    ∃ path location name, Fresh disk path location name ∧
      disk.createTemporary directory = (.ok path, disk.put (location ++ [name]) (.file [])) := by
  have habsolute := isAbsolute_absolutePath disk directory
  unfold createTemporary
  generalize disk.absolutePath directory = start at habsolute ⊢
  cases hwalked : disk.walk (Files.names start) [] with
  | error e => exact .inl ⟨e, by simp only [hwalked]⟩
  | ok location =>
    obtain ⟨n, hchosen, hfree⟩ := freshName_free disk location
    simp only [hwalked, hchosen]
    have hslash := Files.endsInSlash_inside start (temporaryName_plain n)
      (temporaryName_ne (n := n) (by decide))
    by_cases hpossible : Possible (Files.inside start (temporaryName n))
    · have hleads := place_inside habsolute hwalked hpossible
      by_cases hlong : Files.isLongName (temporaryName n) = true
      · left
        refine ⟨.nameTooLong, ?_⟩
        rw [overwrite, hleads, look_named hleads, if_pos hlong]
        simp [hslash]
      · right
        have htarget : Target disk (Files.inside start (temporaryName n)) location
            (temporaryName n) := ⟨hleads, by simpa using hlong, hslash, by simp [hfree]⟩
        refine ⟨_, location, temporaryName n, ⟨htarget, hfree⟩, ?_⟩
        -- an empty file fits into any room
        rw [htarget.overwrite (by simp [hfree])]
        cases disk.room <;> simp
    · obtain ⟨e, hrefused⟩ := overwrite_of_impossible disk hpossible []
      exact .inl ⟨e, by rw [hrefused]⟩

namespace Fresh

variable {disk : Disk} {path : String} {directory : Location} {name : String}

/-- Removing a temporary file brings the disk back. -/
theorem remove (hfresh : Fresh disk path directory name) (bytes : List UInt8) :
    (disk.put (directory ++ [name]) (.file bytes)).remove path = disk := by
  rw [Disk.remove, (hfresh.put bytes).leads, hfresh.entry_put bytes]
  exact erase_put hfresh.free _

/-- Moving a temporary file puts its bytes at the target, or nothing happens. -/
theorem replace (hfresh : Fresh disk path directory name) (bytes : List UInt8) (target : String) :
    (∃ e, (disk.put (directory ++ [name]) (.file bytes)).replace path target =
      (.error e, disk.put (directory ++ [name]) (.file bytes))) ∨
    ∃ directory' name', Target disk target directory' name' ∧
      (disk.put (directory ++ [name]) (.file bytes)).replace path target =
        (.ok (), disk.put (directory' ++ [name']) (.file bytes)) := by
  have hsame := sameDirectories_put hfresh.notDirectory bytes
  have herased := erase_put hfresh.free (.file bytes)
  have hleads := (hfresh.put bytes).leads
  have hentry := hfresh.entry_put bytes
  generalize disk.put (directory ++ [name]) (.file bytes) = filled at *
  unfold Disk.replace
  rw [hleads, hentry]
  cases hplaced : filled.place target with
  | error e => exact .inl ⟨e, rfl⟩
  | ok place =>
    cases hlooked : filled.look target with
    | error e => exact .inl ⟨e, rfl⟩
    | ok found =>
      cases place with
      | known location => exact .inl ⟨.other, rfl⟩
      | named directory' name' =>
        rw [look_named hplaced] at hlooked
        by_cases hlong : Files.isLongName name' = true
        · rw [if_pos hlong] at hlooked
          cases hlooked
        · rw [if_neg hlong] at hlooked
          obtain rfl : filled.find? (directory' ++ [name']) = found := by simpa using hlooked
          by_cases hisDirectory : filled.find? (directory' ++ [name']) = some .directory
          · exact .inl ⟨.isDirectory, by simp [hisDirectory]⟩
          · by_cases hslash : Files.endsInSlash target = true
            · exact .inl ⟨.notDirectory, by simp [hisDirectory, hslash]⟩
            · right
              -- with the temporary file erased, what is left is the disk before
              refine ⟨directory', name', ⟨hsame.symm.place hplaced, by simpa using hlong,
                by simpa using hslash, fun h => hisDirectory ((hsame.find _).mpr h)⟩, ?_⟩
              simp [hisDirectory, hslash, Place.location, herased]

end Fresh

end PartialResponse.Disk
