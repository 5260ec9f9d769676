import PartialResponse.Document.File
import PartialResponse.Proofs.Files.Saving
import PartialResponse.Proofs.Gzip.Stored

/-!
# PartialResponse.Proofs.Document.Saving — documents are saved whole or not at all

What a document is written to is a temporary file as long as something can fail. So
a saving that fails leaves every file as it was, and one that succeeds changes the
target only, which then holds the text of the document. It is compressed if the
path ends in `.gz`.
-/

namespace PartialResponse.Document

variable {z : Gzip.Compressor} {path : String}

/-- The parts of a file make up its bytes, be it compressed or not. -/
theorem bytes_partsFor (z : Gzip.Compressor) (path : String) (bytes : List UInt8) :
    (partsFor z path bytes).bytes = if savesCompressed path then z.compress bytes else bytes := by
  rw [partsFor]
  split <;> simp [SaveParts.bytes, Gzip.Compressor.compress]

/-- What a file is to hold after a text has been saved in it. -/
def savedBytes (z : Gzip.Compressor) (path : String) (text : List Char) : List UInt8 :=
  let bytes := Text.Utf8.encode text
  if savesCompressed path then z.compress bytes else bytes

/-- A text that has not been saved leaves the disk as it was. One that has been saved is in a file at
the target. -/
theorem saveText_run (z : Gzip.Compressor) (path : String) (text : List Char)
    (before : FaultyDisk) : ∃ faults,
    (∃ e, (saveText z path text : StateM FaultyDisk (Except SaveError Unit)).run before =
      (.error e, ⟨before.disk, faults⟩)) ∨
    ∃ directory name, Disk.Target before.disk path directory name ∧
      (saveText z path text : StateM FaultyDisk (Except SaveError Unit)).run before =
        (.ok (), ⟨before.disk.put (directory ++ [name]) (.file (savedBytes z path text)), faults⟩) := by
  obtain ⟨faults, ⟨step, hfailed⟩ | ⟨directory, name, htarget, hsaved⟩⟩ :=
    FaultyDisk.saveParts_run path (partsFor z path (Text.Utf8.encode text)) before
  · refine ⟨faults, .inl ?_⟩
    rw [saveText, Disk.run_bind hfailed]
    cases step <;> exact ⟨_, rfl⟩
  · refine ⟨faults, .inr ⟨directory, name, htarget, ?_⟩⟩
    rw [saveText, Disk.run_bind hsaved, bytes_partsFor]
    rfl

/-- A document that has not been saved leaves the disk as it was. One that has been saved has a text,
which is in a file at the target. -/
theorem saveWith_run (z : Gzip.Compressor) (path : String) (c : Config) (document : Document)
    (before : FaultyDisk) : ∃ faults,
    (∃ e, (document.saveWith z path c : StateM FaultyDisk (Except SaveError Unit)).run before =
      (.error e, ⟨before.disk, faults⟩)) ∨
    ∃ text directory name, document.write? (.ofPath path) c = some text ∧
      Disk.Target before.disk path directory name ∧
      (document.saveWith z path c : StateM FaultyDisk (Except SaveError Unit)).run before =
        (.ok (), ⟨before.disk.put (directory ++ [name]) (.file (savedBytes z path text)), faults⟩) := by
  unfold saveWith
  cases htext : document.write? (.ofPath path) c with
  | none => exact ⟨before.faults, .inl ⟨.noText, rfl⟩⟩
  | some text =>
    obtain ⟨faults, hfailed | ⟨directory, name, htarget, hsaved⟩⟩ := saveText_run z path text before
    · exact ⟨faults, .inl hfailed⟩
    · exact ⟨faults, .inr ⟨text, directory, name, rfl, htarget, hsaved⟩⟩

/-- **Saving is all or nothing.** Whatever a step comes up against, a saving that fails leaves the
disk as it was. One that succeeds has changed nothing but the target, which holds the text of the
document, compressed if the path ends in `.gz`. -/
theorem saveWith_all_or_nothing (hlossless : z.Lossless) (path : String) (c : Config)
    (document : Document) (before : FaultyDisk) :
    ∃ result after,
      (document.saveWith z path c : StateM FaultyDisk (Except SaveError Unit)).run before =
        (result, after) ∧
      (∀ e, result = .error e → after.disk = before.disk) ∧
      (result = .ok () → ∃ text held, document.write? (.ofPath path) c = some text ∧
        before.disk.Wrote after.disk path held ∧
        if ".gz".toList <:+ path.toList then
          held = z.compress (Text.Utf8.encode text) ∧
            Gzip.decompress? held = some (Text.Utf8.encode text)
        else held = Text.Utf8.encode text) := by
  obtain ⟨faults, ⟨e, hfailed⟩ | ⟨text, directory, name, htext, htarget, hsaved⟩⟩ :=
    saveWith_run z path c document before
  · exact ⟨_, _, hfailed, fun _ _ => rfl, nofun⟩
  · refine ⟨_, _, hsaved, nofun, fun _ => ⟨text, _, htext, htarget.wrote _, ?_⟩⟩
    have hcompressed : savesCompressed path = true ↔ ".gz".toList <:+ path.toList :=
      List.isSuffixOf_iff_suffix
    split
    case isTrue hends =>
      rw [savedBytes, if_pos (hcompressed.2 hends)]
      exact ⟨rfl, hlossless _⟩
    case isFalse hends => rw [savedBytes, if_neg fun h => hends (hcompressed.1 h)]

/-- A disk on which the second operation breaks off behind seven bytes. -/
def brokenDisk : FaultyDisk :=
  ⟨Disk.empty, [none, some ⟨.noSpace, 7⟩]⟩

theorem saveWith_all_or_nothing_brokenOff :
    Gzip.Compressor.stored.Lossless ∧
      ∃ after, ((single .null).saveWith .stored "d.json.gz" Config.default :
          StateM FaultyDisk (Except SaveError Unit)).run brokenDisk = (.error .compression, after) ∧
        after.disk = brokenDisk.disk := by
  obtain ⟨result, after, hruns, hunchanged, -⟩ := saveWith_all_or_nothing
    Gzip.Compressor.lossless_stored "d.json.gz" Config.default (single .null) brokenDisk
  have hfails : (((single .null).saveWith .stored "d.json.gz" Config.default :
      StateM FaultyDisk (Except SaveError Unit)).run brokenDisk).1 = .error .compression := by
    decide +kernel
  rw [hruns] at hfails
  obtain rfl : result = .error .compression := hfails
  exact ⟨Gzip.Compressor.lossless_stored, after, hruns, hunchanged _ rfl⟩

end PartialResponse.Document
