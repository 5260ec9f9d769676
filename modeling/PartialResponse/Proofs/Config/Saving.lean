import PartialResponse.Config.File
import PartialResponse.Proofs.Config.RoundTrip
import PartialResponse.Proofs.Files.Growing
import PartialResponse.Proofs.Text.Utf8

/-!
# PartialResponse.Proofs.Config.Saving — what has been saved can be loaded

A configuration is written out after the directories above its file have been made.
If it ends well, then a file with the text of the configuration is there, or the path
leads to a device, which takes everything and keeps nothing. If the configuration
has no text, the file is not even opened.
-/

namespace PartialResponse

namespace Disk

variable {disk after : Disk} {path : String} {bytes : List UInt8}

/-- What stands where the path leads is a device: it takes what is written, and does not keep it. -/
def IsDevice (disk : Disk) (path : String) : Prop :=
  disk.entry path = .ok .void ∨ disk.entry path = .ok .input

instance (disk : Disk) (path : String) : Decidable (disk.IsDevice path) :=
  inferInstanceAs (Decidable (_ ∨ _))

/-- Bytes for which there is room are in the file that they have been written to. -/
theorem Target.entry_of_overwrite {directory : Location} {name : String}
    (ht : Target disk path directory name)
    (hisFile : ∀ entry ∈ disk.find? (directory ++ [name]), ∃ old, entry = .file old)
    (h : disk.overwrite path bytes = (.ok (), after)) : after.entry path = .ok (.file bytes) := by
  rw [ht.overwrite hisFile] at h
  split at h
  · cases h
    exact ht.entry_put bytes
  · split at h
    · cases h
      exact ht.entry_put bytes
    · cases h

/-- Bytes that have been written are in a file at the path, unless it leads to a device. -/
theorem entry_of_overwrite (h : disk.overwrite path bytes = (.ok (), after)) :
    after.IsDevice path ∨ after.entry path = .ok (.file bytes) := by
  cases hplaced : disk.place path with
  | error e => simp [overwrite, hplaced] at h
  | ok place =>
    by_cases hslash : Files.endsInSlash path = true
    · simp [overwrite, hplaced, hslash] at h
    have hplain : Files.endsInSlash path = false := by simpa using hslash
    cases hlooked : disk.look path with
    | error e => simp [overwrite, hplaced, hplain, hlooked] at h
    | ok found =>
      -- what is there decides; a file is made if there is nothing
      have htarget : (∀ entry ∈ found, ∃ old, entry = .file old) →
          after.entry path = .ok (.file bytes) := by
        intro hisFile
        cases place with
        | known location =>
          rw [look_known hplaced, Except.ok.injEq] at hlooked
          obtain ⟨old, heq⟩ := hisFile .directory hlooked.symm
          cases heq
        | named directory name =>
          rw [look_named hplaced] at hlooked
          split_ifs at hlooked with hlong
          obtain rfl : disk.find? (directory ++ [name]) = found := by simpa using hlooked
          have ht : Target disk path directory name := ⟨hplaced, by simpa using hlong, hplain, by
            intro hisDirectory
            obtain ⟨old, heq⟩ := hisFile .directory hisDirectory
            cases heq⟩
          exact ht.entry_of_overwrite hisFile h
      cases found with
      | none => exact .inr (htarget (by simp))
      | some entry =>
        cases entry with
        | file old => exact .inr (htarget (by simp))
        | directory => simp [overwrite, hplaced, hplain, hlooked] at h
        | void =>
          obtain rfl : disk = after := by simpa [overwrite, hplaced, hplain, hlooked] using h
          exact .inl (.inl (entry_eq_ok_iff.mpr ⟨hlooked, .inr hplain⟩))
        | input =>
          obtain rfl : disk = after := by simpa [overwrite, hplaced, hplain, hlooked] using h
          exact .inl (.inr (entry_eq_ok_iff.mpr ⟨hlooked, .inr hplain⟩))

end Disk

/-- With or without a fault: what has been written is there, unless the path leads to a device. -/
theorem FaultyDisk.overwrite_run (path : String) (bytes : List UInt8) (before : FaultyDisk) :
    ∃ result after, (MonadFiles.overwrite path bytes :
        StateM FaultyDisk (Except FileError Unit)).run before = (result, after) ∧
      (result = .ok () → after.disk.IsDevice path ∨ after.disk.entry path = .ok (.file bytes)) := by
  obtain ⟨faults, hsound | ⟨fault, hbroken⟩⟩ := run_attempt (Disk.overwrite path bytes)
    (breakOff (Disk.overwrite path) bytes) before
  · refine ⟨_, _, hsound, fun hok => ?_⟩
    have hwritten : before.disk.overwrite path bytes =
        (.ok (), (before.disk.overwrite path bytes).2) := Prod.ext hok rfl
    exact Disk.entry_of_overwrite hwritten
  · exact ⟨_, _, hbroken, nofun⟩

namespace Config

/-- What is loaded from a file with the text of a configuration is the configuration. -/
theorem load_of_entry {c : Config} {text : List Char} (hwritten : c.write? = some text) {disk : Disk}
    {path : String} (held : disk.entry path = .ok (.file (Text.Utf8.encode text))) :
    (load path : StateM Disk (Except ConfigLoadError Config)).run disk = (.ok c, disk) := by
  rw [load, Disk.run_bind (Disk.run_contents held), ofFile, Text.Utf8.decode?_encode]
  simp only [read?_write? hwritten]
  rfl

/-- What a saving comes to: the directories above the file are made first, and the file is opened only
if there is a text to write. -/
theorem save_run (c : Config) (path : String) (before : FaultyDisk) : ∃ result after,
    (c.save path : StateM FaultyDisk (Except ConfigSaveError Unit)).run before = (result, after) ∧
      (∀ text, c.write? = some text → result = .ok () →
        after.disk.IsDevice path ∨ after.disk.entry path = .ok (.file (Text.Utf8.encode text))) ∧
      (c.write? = none → (∃ e, result = .error e) ∧ before.disk.Grown after.disk) := by
  have hgrown := FaultyDisk.grows_makeParent path before
  obtain ⟨made, middle, hfirst⟩ : ∃ made middle, (makeParent path :
      StateM FaultyDisk (Except FileError Unit)).run before = (made, middle) := ⟨_, _, rfl⟩
  rw [hfirst] at hgrown
  rw [save, Disk.run_bind hfirst]
  cases made with
  | error cause => exact ⟨_, _, rfl, nofun, fun _ => ⟨⟨_, rfl⟩, hgrown⟩⟩
  | ok _ =>
    cases hwritten : c.write? with
    | none => exact ⟨_, _, rfl, nofun, fun _ => ⟨⟨_, rfl⟩, hgrown⟩⟩
    | some text =>
      -- the file is opened only now, so a configuration without a text leaves it alone
      obtain ⟨result, after, hwrote, held⟩ :=
        FaultyDisk.overwrite_run path (Text.Utf8.encode text) middle
      dsimp only
      rw [Disk.run_bind hwrote]
      cases result with
      | error cause => exact ⟨_, _, rfl, nofun, nofun⟩
      | ok _ =>
        refine ⟨_, _, rfl, fun other hsame _ => ?_, nofun⟩
        obtain rfl := Option.some.inj hsame
        exact held rfl

/-- A configuration with strings that are hard to write, in each of the four ways. -/
def hardConfig : Config :=
  ⟨"", true, false, ["a'\\b", "\"\"\"'''\n\"\"", "\r\t\x00\x7f\\", "a\"\\", ""], some false, 0, true⟩

/-- From the device that is always empty the default is loaded. -/
theorem load_of_void {disk : Disk} {path : String} (hvoid : disk.entry path = .ok .void) :
    (load path : StateM Disk (Except ConfigLoadError Config)).run disk = (.ok default, disk) := by
  have hempty : (MonadFiles.contents path : StateM Disk (Except FileError (List UInt8))).run disk =
      (.ok [], disk) := by
    show disk.contents path = _
    simp only [Disk.contents, hvoid]
  rw [load, Disk.run_bind hempty]
  rfl

end Config

end PartialResponse
