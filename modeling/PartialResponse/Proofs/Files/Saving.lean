import PartialResponse.Files.Faults
import PartialResponse.Proofs.Files.Temporary

/-!
# PartialResponse.Proofs.Files.Saving — files are saved whole or not at all

Whatever fails on the way, a temporary file that has been made is removed again
unless it has replaced the target. So what a saving leaves is the disk before, or
the disk before with a new file at the target.
-/

namespace PartialResponse

/-! ## One file changes -/

/-- The second disk is the first one with a file at a path. Nothing else has changed, and nothing has
been shown. -/
structure Disk.Wrote (before after : Disk) (path : String) (bytes : List UInt8) : Prop where
  held : after.entry path = .ok (.file bytes)
  here : after.here = before.here
  shown : after.shown = before.shown
  changed : ∃ directory name, before.place path = .ok (.named directory name) ∧
    ∀ location, after.find? location =
      if location = directory ++ [name] then some (.file bytes) else before.find? location

theorem Disk.Target.wrote {disk : Disk} {path : String} {directory : Location} {name : String}
    (ht : Target disk path directory name) (bytes : List UInt8) :
    disk.Wrote (disk.put (directory ++ [name]) (.file bytes)) path bytes where
  held := ht.entry_put bytes
  here := rfl
  shown := rfl
  changed := ⟨directory, name, ht.leads, find?_put disk (by simp) _⟩

namespace FaultyDisk

/-! ## Steps of a saving -/

open Disk

variable {disk : Disk} {path : String} {directory : Location} {name : String}

/-- Adding bytes to a file, with or without a fault, changes that file only. -/
theorem append_target (ht : Target disk path directory name) (old bytes : List UInt8)
    (faults : List (Option Disk.Fault)) :
    ∃ result written faults',
      (MonadFiles.append path bytes : StateM FaultyDisk (Except FileError Unit)).run
          ⟨disk.put (directory ++ [name]) (.file old), faults⟩ =
        (result, ⟨disk.put (directory ++ [name]) (.file written), faults'⟩) ∧
      (result = .ok () → written = old ++ bytes) := by
  obtain ⟨faults', hsound | ⟨fault, hbroken⟩⟩ := run_attempt (Disk.append path bytes)
    (breakOff (Disk.append path) bytes) ⟨disk.put (directory ++ [name]) (.file old), faults⟩
  · obtain ⟨result, written, heq, hcomplete⟩ := ht.append old bytes
    rw [heq] at hsound
    exact ⟨result, written, faults', hsound, hcomplete⟩
  · obtain ⟨result, written, heq, -⟩ := ht.append old (bytes.take fault.written)
    rw [breakOff, heq] at hbroken
    exact ⟨.error fault.cause, written, faults', hbroken, nofun⟩

/-- The run lemma, by induction on the parts: only the file they are added to changes, and it has
them all if no step fails. -/
theorem appendParts_target (ht : Target disk path directory name) (parts : SaveParts)
    (old : List UInt8) (faults : List (Option Disk.Fault)) :
    ∃ result written faults',
      (appendParts path parts : StateM FaultyDisk (Except SaveStep Unit)).run
          ⟨disk.put (directory ++ [name]) (.file old), faults⟩ =
        (result, ⟨disk.put (directory ++ [name]) (.file written), faults'⟩) ∧
      (result = .ok () → written = old ++ parts.bytes) := by
  induction parts generalizing old faults with
  | nil => exact ⟨.ok (), old, faults, rfl, fun _ => by simp [SaveParts.bytes]⟩
  | cons part rest ih =>
    obtain ⟨step, bytes⟩ := part
    obtain ⟨result, written, faults', hfirst, hcomplete⟩ := append_target ht old bytes faults
    rw [appendParts, run_bind hfirst]
    -- the first step that fails ends the run
    cases result with
    | error e => exact ⟨.error step, written, faults', rfl, nofun⟩
    | ok _ =>
      obtain ⟨result, all, faults'', hbehind, hcomplete'⟩ := ih written faults'
      refine ⟨result, all, faults'', hbehind, fun hok => ?_⟩
      rw [hcomplete' hok, hcomplete rfl]
      simp [SaveParts.bytes]

/-- A temporary file is made, or nothing happens. -/
theorem createTemporary_run (parent : String) (before : FaultyDisk) : ∃ faults,
    (∃ e, (MonadFiles.createTemporary parent :
        StateM FaultyDisk (Except FileError String)).run before =
      (.error e, ⟨before.disk, faults⟩)) ∨
    ∃ path directory name, Fresh before.disk path directory name ∧
      (MonadFiles.createTemporary parent : StateM FaultyDisk (Except FileError String)).run before =
        (.ok path, ⟨before.disk.put (directory ++ [name]) (.file []), faults⟩) := by
  obtain ⟨faults, hsound | ⟨fault, hbroken⟩⟩ :=
    run_attempt (Disk.createTemporary parent) refuse before
  · refine ⟨faults, ?_⟩
    obtain ⟨e, heq⟩ | ⟨path, directory, name, hfresh, heq⟩ := createTemporary_cases before.disk parent
    · rw [heq] at hsound
      exact .inl ⟨e, hsound⟩
    · rw [heq] at hsound
      exact .inr ⟨path, directory, name, hfresh, hsound⟩
  · exact ⟨faults, .inl ⟨fault.cause, hbroken⟩⟩

/-- The temporary file is moved to the target, or nothing happens. -/
theorem replace_run (hfresh : Fresh disk path directory name) (bytes : List UInt8) (target : String)
    (faults : List (Option Disk.Fault)) : ∃ faults',
    (∃ e, (MonadFiles.replace path target : StateM FaultyDisk (Except FileError Unit)).run
        ⟨disk.put (directory ++ [name]) (.file bytes), faults⟩ =
      (.error e, ⟨disk.put (directory ++ [name]) (.file bytes), faults'⟩)) ∨
    ∃ directory' name', Target disk target directory' name' ∧
      (MonadFiles.replace path target : StateM FaultyDisk (Except FileError Unit)).run
          ⟨disk.put (directory ++ [name]) (.file bytes), faults⟩ =
        (.ok (), ⟨disk.put (directory' ++ [name']) (.file bytes), faults'⟩) := by
  obtain ⟨faults', hsound | ⟨fault, hbroken⟩⟩ := run_attempt (Disk.replace path target) refuse
    ⟨disk.put (directory ++ [name]) (.file bytes), faults⟩
  · refine ⟨faults', ?_⟩
    obtain ⟨e, heq⟩ | ⟨directory', name', hreaches, heq⟩ := hfresh.replace bytes target
    · rw [heq] at hsound
      exact .inl ⟨e, hsound⟩
    · rw [heq] at hsound
      exact .inr ⟨directory', name', hreaches, hsound⟩
  · exact ⟨faults', .inl ⟨fault.cause, hbroken⟩⟩

/-- Removing the temporary file brings the disk back. -/
theorem remove_run (hfresh : Fresh disk path directory name) (bytes : List UInt8)
    (faults : List (Option Disk.Fault)) :
    (MonadFiles.remove path : StateM FaultyDisk Unit).run
        ⟨disk.put (directory ++ [name]) (.file bytes), faults⟩ = ((), ⟨disk, faults⟩) := by
  show ((), (⟨(disk.put (directory ++ [name]) (.file bytes)).remove path, faults⟩ : FaultyDisk)) = _
  rw [hfresh.remove bytes]

/-! ## Savings -/

/-- A saving that fails leaves the disk as it was. One that succeeds puts a file with all the parts
at the target. -/
theorem saveParts_run (target : String) (parts : SaveParts) (before : FaultyDisk) : ∃ faults,
    (∃ step, (saveParts target parts : StateM FaultyDisk (Except SaveStep Unit)).run before =
      (.error step, ⟨before.disk, faults⟩)) ∨
    ∃ directory name, Target before.disk target directory name ∧
      (saveParts target parts : StateM FaultyDisk (Except SaveStep Unit)).run before =
        (.ok (), ⟨before.disk.put (directory ++ [name]) (.file parts.bytes), faults⟩) := by
  rw [saveParts]
  obtain ⟨faults, ⟨e, hcreated⟩ | ⟨path, directory, name, hfresh, hcreated⟩⟩ :=
    createTemporary_run (Files.directory target) before
  · exact ⟨faults, .inl ⟨.create, by rw [run_bind hcreated]; rfl⟩⟩
  obtain ⟨result, written, faults, hfilled, hcomplete⟩ :=
    appendParts_target hfresh.toTarget parts [] faults
  rw [run_bind hcreated]
  dsimp only
  rw [run_bind hfilled]
  cases result with
  | error step =>
    -- some of the parts may be in the temporary file, which goes with them
    exact ⟨faults, .inl ⟨step, run_bind (remove_run hfresh written faults) _⟩⟩
  | ok _ =>
    obtain rfl : written = parts.bytes := hcomplete rfl
    obtain ⟨faults, ⟨e, hreplaced⟩ | ⟨directory', name', hreaches, hreplaced⟩⟩ :=
      replace_run hfresh parts.bytes target faults
    · refine ⟨faults, .inl ⟨.replace, ?_⟩⟩
      dsimp only
      rw [run_bind hreplaced]
      exact run_bind (remove_run hfresh parts.bytes faults) _
    · refine ⟨faults, .inr ⟨directory', name', hreaches, ?_⟩⟩
      dsimp only
      rw [run_bind hreplaced]
      rfl

end FaultyDisk

end PartialResponse
