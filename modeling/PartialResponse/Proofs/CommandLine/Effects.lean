import PartialResponse.Proofs.CommandLine.Run
import PartialResponse.Proofs.Document.Saving

/-!
# PartialResponse.Proofs.CommandLine.Effects — what a run changes

Loading the configuration and the document only reads, and deciding about the
document touches neither the disk nor the standard output. What is written is
written last: to the standard output, or by a saving, which is all or nothing. So a
run that fails has changed no file and shown nothing, and one that succeeds has
either shown something or changed the file to write, and no other. This holds
whatever file the document comes from, be it the one to write.
-/

namespace PartialResponse

/-! ## Only reading -/

/-- No file has changed, and nothing has been shown. The standard input may have been taken. -/
def Disk.OnlyRead (before after : Disk) : Prop :=
  ∃ input, after = { before with input }

/-- No file has changed, but bytes have been shown. The standard input may have been taken. -/
def Disk.OnlyShown (before after : Disk) (bytes : List UInt8) : Prop :=
  ∃ input, after = { before with input, shown := before.shown ++ bytes }

namespace Disk.OnlyRead

variable {disk disk' disk'' : Disk}

/-- Nothing has happened. -/
theorem refl (disk : Disk) : disk.OnlyRead disk :=
  ⟨disk.input, rfl⟩

theorem trans (h : disk.OnlyRead disk') (h' : disk'.OnlyRead disk'') : disk.OnlyRead disk'' := by
  rcases h with ⟨input, rfl⟩
  rcases h' with ⟨input', rfl⟩
  exact ⟨input', rfl⟩

/-- Reading shows nothing. -/
theorem shown_eq (h : disk.OnlyRead disk') : disk'.shown = disk.shown := by
  rcases h with ⟨input, rfl⟩
  rfl

/-- What has been shown behind a reading has been shown behind what was shown before it. -/
theorem onlyShown (h : disk.OnlyRead disk') {bytes : List UInt8} (h' : disk'.OnlyShown disk'' bytes) :
    disk.OnlyShown disk'' bytes := by
  rcases h with ⟨input, rfl⟩
  rcases h' with ⟨input', rfl⟩
  exact ⟨input', rfl⟩

/-- What has been written behind a reading has been written to the files before it. -/
theorem wrote (h : disk.OnlyRead disk') {path : String} {bytes : List UInt8}
    (h' : disk'.Wrote disk'' path bytes) : disk.Wrote disk'' path bytes := by
  rcases h with ⟨input, rfl⟩
  rcases h' with ⟨hheld, hhere, hshown, directory, name, hleads, hchanged⟩
  -- where a path leads to does not depend on the standard input
  have hsame : SameDirectories { disk with input } disk := ⟨rfl, fun _ => Iff.rfl⟩
  exact ⟨hheld, hhere, hshown, directory, name, hsame.place hleads, hchanged⟩

end Disk.OnlyRead

namespace FaultyDisk

variable {α β : Type}

/-- An action only reads, whatever the disk and its faults. -/
def Reads (action : StateM FaultyDisk α) : Prop :=
  ∀ before : FaultyDisk, before.disk.OnlyRead (action.run before).2.disk

theorem Reads.pure (a : α) : Reads (Pure.pure a : StateM FaultyDisk α) := by
  intro before
  exact .refl before.disk

/-- Two readings in a row. -/
theorem Reads.bind {first : StateM FaultyDisk α} {next : α → StateM FaultyDisk β}
    (h : Reads first) (h' : ∀ a, Reads (next a)) : Reads (first >>= next) := by
  intro before
  exact (h before).trans (h' (first.run before).1 (first.run before).2)

/-- An action of the disk only reads if it does so without a fault and with any. -/
theorem reads_attempt {sound : Disk → α × Disk} {broken : Disk.Fault → Disk → α × Disk}
    (h : ∀ disk : Disk, disk.OnlyRead (sound disk).2)
    (h' : ∀ fault (disk : Disk), disk.OnlyRead (broken fault disk).2) : Reads (attempt sound broken) := by
  intro before
  rcases run_attempt sound broken before with ⟨faults, heq | ⟨fault, heq⟩⟩
  · rw [heq]
    exact h before.disk
  · rw [heq]
    exact h' fault before.disk

/-- Reading a file changes none, even if it is the standard input. -/
theorem reads_contents (path : String) :
    Reads (MonadFiles.contents path : StateM FaultyDisk (Except FileError (List UInt8))) := by
  apply reads_attempt
  · intro disk
    unfold Disk.contents
    split
    -- the standard input is read to its end
    case h_5 => exact ⟨[], rfl⟩
    all_goals exact .refl disk
  · intro fault disk
    exact .refl disk

/-- Whether a file is there is found out by reading. -/
theorem reads_isThere (path : String) :
    Reads (MonadFiles.isThere path : StateM FaultyDisk Bool) :=
  reads_attempt .refl fun _ => .refl

/-- The standard input is taken, and no file is. -/
theorem reads_pipedInput : Reads pipedInput := by
  intro before
  exact ⟨[], rfl⟩

end FaultyDisk

namespace CommandLine

open FaultyDisk

/-! ## What runs read -/

/-- Loading a configuration file only reads. -/
theorem reads_loadConfigFile (path : String) :
    Reads (Config.load path : StateM FaultyDisk (Except ConfigLoadError Config)) :=
  (reads_contents path).bind fun _ => .pure _

/-- Looking for a configuration file only reads, whether there is one or not. -/
theorem reads_loadFromHome (home : Option String) :
    Reads (Config.loadFromHome home : StateM FaultyDisk (Config × Bool)) := by
  unfold Config.loadFromHome
  split
  · exact .pure _
  · next path _ =>
    refine (reads_isThere path).bind fun there => ?_
    cases there with
    | false => exact .pure _
    | true =>
      refine (reads_loadConfigFile path).bind fun loaded => ?_
      cases loaded <;> exact .pure _

/-- Loading the configuration only reads. -/
theorem reads_loadConfig (a : Arguments) (home : Option String) :
    Reads (loadConfig a home : StateM FaultyDisk (Except RunError Config)) := by
  unfold loadConfig
  split
  · next path _ =>
    refine (reads_loadConfigFile path).bind fun loaded => ?_
    cases loaded <;> exact .pure _
  · exact (reads_loadFromHome home).bind fun _ => .pure _

/-- Loading the document only reads, from wherever it comes. -/
theorem reads_loadDocument (a : Arguments) : Reads (loadDocument a pipedInput) := by
  unfold loadDocument
  split
  · next path _ =>
    exact ((reads_contents path).bind fun _ => .pure _).bind fun _ => .pure _
  · refine reads_pipedInput.bind fun input => ?_
    cases input <;> exact .pure _

/-! ## What runs write -/

/-- What has become of a disk, by how a run ends. -/
def Leaves (a : Arguments) (before after : Disk) : Except RunError Unit → Prop
  | .error _ => before.OnlyRead after
  | .ok () =>
    match a.output with
    | none => ∃ bytes, before.OnlyShown after bytes
    | some path => ∃ held, before.Wrote after path held

variable {a : Arguments}

/-- A reading in front of it does not matter. -/
theorem Leaves.behind {disk disk' disk'' : Disk} {result : Except RunError Unit}
    (h : disk.OnlyRead disk') (h' : Leaves a disk' disk'' result) : Leaves a disk disk'' result := by
  cases result with
  | error e => exact h.trans h'
  | ok _ =>
    unfold Leaves at h' ⊢
    cases hpath : a.output with
    | none =>
      rw [hpath] at h'
      obtain ⟨bytes, hshown⟩ := h'
      exact ⟨bytes, h.onlyShown hshown⟩
    | some path =>
      rw [hpath] at h'
      obtain ⟨held, hwrote⟩ := h'
      exact ⟨held, h.wrote hwrote⟩

/-- Writing the document is the only step that shows something or changes a file. -/
theorem leaves_writeDocument (a : Arguments) (c : Config) (document : Document)
    (before : FaultyDisk) :
    let outcome := (writeDocument a c document :
      StateM FaultyDisk (Except RunError Unit)).run before
    Leaves a before.disk outcome.2.disk outcome.1 := by
  -- to the standard output in one go, or to a file by a saving
  unfold writeDocument
  cases hpath : a.output with
  | none =>
    cases hwrite : document.write? a.outputFormat c with
    | none => exact .refl before.disk
    | some text =>
      show Leaves a before.disk (before.disk.output (Text.Utf8.encode text)).2 (.ok ())
      rw [Leaves, hpath]
      exact ⟨_, before.disk.input, rfl⟩
  | some path =>
    dsimp only
    rw [Document.save]
    rcases document.saveWith_run .stored path c before with
      ⟨faults, ⟨e, hfailed⟩ | ⟨text, directory, name, -, htarget, hsaved⟩⟩
    · rw [Disk.run_bind hfailed]
      exact .refl before.disk
    · rw [Disk.run_bind hsaved]
      show Leaves a before.disk _ (.ok ())
      rw [Leaves, hpath]
      exact ⟨_, htarget.wrote _⟩

/-- The run lemma: each step but the last only reads. -/
theorem leaves_run (a : Arguments) (home : Option String) (before : FaultyDisk) :
    let outcome := (run a home pipedInput).run before
    Leaves a before.disk outcome.2.disk outcome.1 := by
  unfold run
  have hconfig := reads_loadConfig a home before
  rcases hloaded : (loadConfig a home : StateM FaultyDisk (Except RunError Config)).run before with
    ⟨config, s⟩
  rw [hloaded] at hconfig
  rw [Disk.run_bind hloaded]
  cases config with
  | error e => exact hconfig
  | ok c =>
    -- what follows starts from a disk with the same files
    apply Leaves.behind hconfig
    have hdocument := reads_loadDocument a s
    rcases hloaded' : (loadDocument a pipedInput).run s with ⟨document, s'⟩
    rw [hloaded'] at hdocument
    dsimp only
    rw [Disk.run_bind hloaded']
    cases document with
    | error e => exact hdocument
    | ok document =>
      apply Leaves.behind hdocument
      dsimp only
      cases select a c document with
      | error e => exact .refl s'.disk
      | ok rest => exact leaves_writeDocument a c rest s'

/-- Every error is reported with a code of failure. -/
theorem RunError.code_report_ne_zero (e : RunError) : e.report.code ≠ 0 := by
  unfold RunError.report
  split <;> exact Nat.succ_ne_zero _

/-- **A failing run changes nothing.** If a run ends with an error, be it in reading or in saving,
nothing has been written to the standard output and every file is as before. If a run with a file
to write ends well, nothing has been written to the standard output and that file is the only one
that differs, whatever the document comes from. If a run without one ends well, something has been
written to the standard output and every file is as before. -/
theorem execute_leaves {arguments : List String} (hparse : Arguments.parse arguments = .ok a)
    (home : Option String) (before : FaultyDisk) :
    ∃ report after, (execute arguments home pipedInput).run before = (report, after) ∧
      (report.code ≠ 0 →
        after.disk.shown = before.disk.shown ∧ before.disk.OnlyRead after.disk) ∧
      (report.code = 0 → ∀ path, a.output = some path →
        after.disk.shown = before.disk.shown ∧
          ∃ held, before.disk.Wrote after.disk path held) ∧
      (report.code = 0 → a.output = none →
        ∃ bytes, before.disk.OnlyShown after.disk bytes) := by
  have hleaves := leaves_run a home before
  rcases hrun : (run a home pipedInput).run before with ⟨result, after⟩
  rw [hrun] at hleaves
  refine ⟨reportOf result, after, run_execute hparse hrun, ?_⟩
  cases result with
  | error e =>
    -- the report of an error writes nothing, so the disk is what the run has left
    have hfails : (reportOf (.error e)).code ≠ 0 := e.code_report_ne_zero
    have hread : before.disk.OnlyRead after.disk := hleaves
    exact ⟨fun _ => ⟨hread.shown_eq, hread⟩, fun hzero => absurd hzero hfails,
      fun hzero => absurd hzero hfails⟩
  | ok _ =>
    have hsucceeds : (reportOf (.ok ())).code = 0 := rfl
    unfold Leaves at hleaves
    refine ⟨fun hnonzero => absurd hsucceeds hnonzero, ?_, ?_⟩
    · intro _ path hpath
      rw [hpath] at hleaves
      obtain ⟨held, hwrote⟩ := hleaves
      exact ⟨hwrote.shown, held, hwrote⟩
    · intro _ hpath
      rw [hpath] at hleaves
      exact hleaves

/-- A working directory with a document in it. -/
def oneFile : FaultyDisk where
  disk := Disk.empty.put (Disk.workplace ++ ["d.json"])
    (.file (Text.Utf8.encode "\x7b\"a\":1,\"b\":2\x7d".toList))
  faults := []

/-- The command line that prunes a file in place. -/
def inPlace : List String := ["-f", "a", "-o", "d.json", "d.json"]

/-- A file pruned in place. -/
theorem execute_leaves_inPlace :
    ∃ a, Arguments.parse inPlace = .ok a ∧ a.file = some "d.json" ∧ a.output = some "d.json" ∧
      ∃ report after, (execute inPlace none pipedInput).run oneFile = (report, after) ∧
        report.code = 0 ∧ after.disk.shown = oneFile.disk.shown ∧
        ∃ held, oneFile.disk.Wrote after.disk "d.json" held := by
  have hparse : Arguments.parse inPlace = .ok { Arguments.empty with
      file := some "d.json", fields := some "a", output := some "d.json" } := by
    decide +kernel
  obtain ⟨report, after, hrun, -, hwritten, -⟩ := execute_leaves hparse none oneFile
  have hsucceeds : ((execute inPlace none pipedInput).run oneFile).1.code = 0 := by
    decide +kernel
  rw [hrun] at hsucceeds
  obtain ⟨hshown, held, hwrote⟩ := hwritten hsucceeds "d.json" rfl
  exact ⟨_, hparse, rfl, rfl, report, after, hrun, hsucceeds, hshown, held, hwrote⟩

end CommandLine

end PartialResponse
