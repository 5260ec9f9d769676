import PartialResponse.CommandLine.Report
import PartialResponse.Files.Disk
import PartialResponse.Proofs.Document.FileNames
import PartialResponse.Proofs.Text.Utf8

/-!
# PartialResponse.Proofs.CommandLine.Run — runs on files that are there

A run that is told where its configuration and its document are, and finds both,
comes down to its decision about the document: it fails with that, or it goes on to
write what is left (`run_of_files`). Up to there neither the disk nor the standard
input is touched.
-/

namespace PartialResponse

/-! ## Files that are there -/

/-- There is nothing at the empty path. -/
theorem Disk.ne_empty_of_entry {disk : Disk} {path : String} {entry : Entry}
    (h : disk.entry path = .ok entry) : path ≠ "" := by
  rintro rfl
  have hnothing : disk.entry "" = .error .notFound := by
    rw [Disk.entry, Disk.look, Disk.place]
    rfl
  rw [hnothing] at h
  cases h

/-- A file with a JSON text is the document with its value, if the path tells so. -/
theorem Document.ofFile_json {path : String} {text : List Char} {value : Tree}
    (hjson : Format.endsIn ".json" path.toList = true) (hreads : Json.parse? text = some value) :
    ofFile path (.ok (Text.Utf8.encode text)) = .ok (.single value) := by
  have hdecoded : decodeFile path (.ok (Text.Utf8.encode text)) = .ok text := by
    simp [decodeFile, loadsCompressed_of_json hjson, Text.Utf8.decode?_encode]
  simp [ofFile, hdecoded, Format.ofPath_of_json hjson, read, readJson, hreads]

/-- A file with the text of a configuration is that configuration. -/
theorem Config.ofFile_encode (path : String) {text : List Char} {c : Config}
    (hreads : read? text = some c) : ofFile path (.ok (Text.Utf8.encode text)) = .ok c := by
  simp [ofFile, Text.Utf8.decode?_encode, hreads]

namespace CommandLine

variable {a : Arguments} {disk : Disk} {c : Config} {document : Document}

/-- The configuration of a run that is told where to find it. -/
theorem run_loadConfig {path : String} {bytes : List UInt8} (hpath : a.config = some path)
    (hfile : disk.entry path = .ok (.file bytes)) (hloads : Config.ofFile path (.ok bytes) = .ok c)
    (home : Option String) :
    (loadConfig a home : StateM Disk (Except RunError Config)).run disk = (.ok (a.layer c), disk) := by
  have hread : (Config.load path : StateM Disk (Except ConfigLoadError Config)).run disk =
      (.ok c, disk) := by
    rw [Config.load, Disk.run_bind (Disk.run_contents hfile), hloads]
    rfl
  rw [loadConfig, hpath]
  exact Disk.run_bind hread _

/-- The document of a run that is told where to find it. -/
theorem run_loadDocument {path : String} {bytes : List UInt8} (hpath : a.file = some path)
    (hfile : disk.entry path = .ok (.file bytes))
    (hloads : Document.ofFile path (.ok bytes) = .ok document)
    (input : StateM Disk (Option (List UInt8))) :
    (loadDocument a input).run disk = (.ok document, disk) := by
  have hread : (Document.load path : StateM Disk (Except LoadError Document)).run disk =
      (.ok document, disk) := by
    rw [Document.load, Disk.run_bind (Disk.run_contents hfile), hloads]
    rfl
  rw [loadDocument, hpath]
  exact Disk.run_bind hread _

/-- Without a file to write, the text of the document goes to the standard output. -/
theorem run_writeDocument (houtput : a.output = none) {text : List Char}
    (hwrite : document.write? a.outputFormat c = some text) :
    (writeDocument a c document : StateM Disk (Except RunError Unit)).run disk =
      (.ok (), { disk with shown := disk.shown ++ Text.Utf8.encode text }) := by
  rw [writeDocument, houtput]
  simp only [hwrite]
  rfl

/-- A run that reads its configuration and its document from files. -/
theorem run_of_files {path configPath : String} {bytes configBytes : List UInt8}
    (hconfigPath : a.config = some configPath)
    (hconfigFile : disk.entry configPath = .ok (.file configBytes))
    (hconfigLoads : Config.ofFile configPath (.ok configBytes) = .ok c)
    (hpath : a.file = some path) (hfile : disk.entry path = .ok (.file bytes))
    (hloads : Document.ofFile path (.ok bytes) = .ok document)
    (home : Option String) (input : StateM Disk (Option (List UInt8))) :
    (run a home input).run disk =
      match select a (a.layer c) document with
      | .error e => (.error e, disk)
      | .ok rest =>
        (writeDocument a (a.layer c) rest : StateM Disk (Except RunError Unit)).run disk := by
  rw [run, Disk.run_bind (run_loadConfig hconfigPath hconfigFile hconfigLoads home)]
  show (loadDocument a input >>= _).run disk = _
  rw [Disk.run_bind (run_loadDocument hpath hfile hloads input)]
  cases hselect : select a (a.layer c) document with
  | error e =>
    simp only [hselect]
    rfl
  | ok rest => simp only [hselect]

/-- The command ends as its run does. -/
theorem run_execute {σ : Type} [MonadFiles (StateM σ)] {arguments : List String}
    (hparse : Arguments.parse arguments = .ok a) {state state' : σ}
    {result : Except RunError Unit} {home : Option String}
    {input : StateM σ (Option (List UInt8))}
    (hrun : (run a home input).run state = (result, state')) :
    (execute arguments home input).run state = (reportOf result, state') := by
  rw [execute, hparse]
  exact Disk.run_bind hrun _

end CommandLine

end PartialResponse
