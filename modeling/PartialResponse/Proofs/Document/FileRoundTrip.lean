import PartialResponse.Proofs.Document.Detection
import PartialResponse.Proofs.Document.FileNames
import PartialResponse.Proofs.Document.Saving

/-!
# PartialResponse.Proofs.Document.FileRoundTrip — what has been saved can be loaded

A document that has been saved as JSON or JSON Lines is loaded as it was, compressed
or not: the text reads back, and loading decompresses a file if saving has compressed
it. There is one name for which it does not. A file with the name `.gz` is compressed
by saving, as its path ends so, but to loading its name has no ending. The compressed
bytes are no text, so loading it fails.
-/

namespace PartialResponse

open Text.Utf8

/-! ## The name of what has been saved -/

/-- A path to where a file can be put ends in the name of the file. -/
theorem Disk.Target.exists_pieces {disk : Disk} {path : String} {directory : Location}
    {name : String} (ht : Target disk path directory name) :
    ∃ before, Files.pieces path = before ++ [name] ∧ Files.fileName? path = some name := by
  obtain ⟨hpossible, hleads⟩ := place_eq_ok_iff.1 ht.leads
  have hne : path ≠ "" := by
    rintro rfl
    cases hpossible.nonempty
  obtain ⟨before, last, hsplit, hlast⟩ := Files.exists_last_piece hne ht.plain
  have hnames : Files.names path = before.filter (!·.isEmpty) ++ [last] := by
    rw [Files.names, hsplit, List.filter_append, List.filter_cons_of_pos (by simpa using hlast)]
    rfl
  rw [hnames] at hleads
  -- the names are generalized for the cases of where they lead
  generalize hwalked : before.filter (!·.isEmpty) ++ [last] = walked at hleads
  cases hleads with
  | named hproper hwalk =>
    obtain ⟨-, rfl⟩ := List.append_singleton_inj.1 hwalked
    rw [not_or] at hproper
    exact ⟨before, hsplit, Files.fileName?_of_pieces hsplit hlast hproper.1 hproper.2⟩

namespace Document

variable {z : Gzip.Compressor} {c : Config} {path name : String} {document : Document}

/-- Loading decompresses a file if saving has compressed it, unless its name is `.gz`. -/
theorem loadsCompressed_of_target {disk : Disk} {directory : Location}
    (ht : Disk.Target disk path directory name) :
    loadsCompressed path = (savesCompressed path && name != ".gz") := by
  obtain ⟨before, hsplit, hname⟩ := ht.exists_pieces
  rw [loadsCompressed_of_fileName hname, savesCompressed_of_pieces hsplit]

/-- The text of what has been saved. -/
theorem decodeFile_savedBytes (hlossless : z.Lossless) (text : List Char) {disk : Disk}
    {directory : Location} (ht : Disk.Target disk path directory name) :
    decodeFile path (.ok (savedBytes z path text)) =
      if name = ".gz" then .error (.read path) else .ok text := by
  have hloads := loadsCompressed_of_target ht
  by_cases hbare : name = ".gz"
  · -- the bytes are taken for a text, and they are none
    obtain ⟨before, hsplit, -⟩ := ht.exists_pieces
    have hsaves : savesCompressed path = true := by
      rw [savesCompressed_of_pieces hsplit, hbare]
      rfl
    have hnone := Gzip.decode?_of_isMarked
      (Gzip.isMarked_of_decompress? (hlossless (encode text)))
    rw [if_pos hbare, decodeFile, hloads, savedBytes, hsaves, hbare]
    simp [hnone]
  · have hsame : loadsCompressed path = savesCompressed path := by
      rw [hloads, bne_iff_ne.2 hbare, Bool.and_true]
    rw [if_neg hbare, decodeFile, hsame, savedBytes]
    by_cases hsaves : savesCompressed path = true
    · simp [hsaves, Gzip.text?, hlossless (encode text), decode?_encode]
    · simp [hsaves, decode?_encode]

/-! ## Documents that come back -/

/-- A document has the form that reading a format gives it. -/
inductive Suits : Document → Format → Prop
  | single (value : Tree) : Suits (.single value) .json
  | stream {values : List Tree} : values ≠ [] → Suits (.stream values) .jsonLines

/-- What is written in a format that suits a document reads back as the document. -/
theorem read_of_write? {format : Format} (hsuits : document.Suits format)
    (hrestorable : ∀ value ∈ document.values, Json.Restorable value) {text : List Char}
    (hwrite : document.write? format c = some text) :
    read format (.ofList text) = .ok document := by
  cases hsuits with
  | single value =>
    obtain ⟨layout, -, rfl⟩ := Option.map_eq_some_iff.1 hwrite
    rw [read, String.toList_ofList]
    exact readJson_write (hrestorable value List.mem_cons_self) layout
  | stream hne =>
    rw [write?_stream (by decide)] at hwrite
    obtain rfl := Option.some.inj hwrite
    rw [read, String.toList_ofList]
    exact readJsonLines_writeLines hrestorable hne

/-! ## Saving and loading -/

/-- What has been saved has a name, on which it depends whether it is loaded as it was. -/
theorem exists_name_of_saveWith (hlossless : z.Lossless) (hsuits : document.Suits (.ofPath path))
    (hrestorable : ∀ value ∈ document.values, Json.Restorable value) {before after : FaultyDisk}
    (hsaved : (document.saveWith z path c :
      StateM FaultyDisk (Except SaveError Unit)).run before = (.ok (), after)) :
    ∃ name, Files.fileName? path = some name ∧
      savesCompressed path = Format.endsIn ".gz" name.toList ∧
      loadsCompressed path = (savesCompressed path && name != ".gz") ∧
      (load path : StateM Disk (Except LoadError Document)).run after.disk =
        (if name = ".gz" then .error (.read path) else .ok document, after.disk) := by
  -- a saving either fails or puts the bytes at the target
  obtain ⟨faults, ⟨e, hfailed⟩ | ⟨text, directory, name, hwrite, htarget, hdone⟩⟩ :=
    saveWith_run z path c document before
  · rw [hfailed] at hsaved
    cases hsaved
  rw [hdone] at hsaved
  cases hsaved
  obtain ⟨pieces, hsplit, hname⟩ := htarget.exists_pieces
  refine ⟨name, hname, savesCompressed_of_pieces hsplit, loadsCompressed_of_target htarget, ?_⟩
  have htext := decodeFile_savedBytes hlossless text htarget
  have hloaded : ofFile path (.ok (savedBytes z path text)) =
      if name = ".gz" then .error (.read path) else .ok document := by
    rw [ofFile, htext]
    by_cases hbare : name = ".gz"
    · simp only [hbare, if_true]
    · simp only [hbare, if_false, read_of_write? hsuits hrestorable hwrite]
  rw [load, Disk.run_bind (Disk.run_contents (htarget.entry_put _)), hloaded]
  rfl

/-- **What has been saved can be loaded.** A document that suits the format of the path comes back as
it was, whatever the disk and its faults, as long as the name is not `.gz`; loading decompresses the
file if and only if saving has compressed it. A file with the name `.gz` has been compressed, but
loading does not decompress it, and so fails. -/
theorem load_of_saveWith (hlossless : z.Lossless) (c : Config) {path : String}
    {document : Document} (hsuits : document.Suits (.ofPath path))
    (hrestorable : ∀ value ∈ document.values, Json.Restorable value) {before after : FaultyDisk}
    (hsaved : (document.saveWith z path c :
      StateM FaultyDisk (Except SaveError Unit)).run before = (.ok (), after)) :
    (Files.fileName? path ≠ some ".gz" →
      loadsCompressed path = savesCompressed path ∧
      (load path : StateM Disk (Except LoadError Document)).run after.disk =
        (.ok document, after.disk)) ∧
    (Files.fileName? path = some ".gz" →
      savesCompressed path = true ∧ loadsCompressed path = false ∧
      (load path : StateM Disk (Except LoadError Document)).run after.disk =
        (.error (.read path), after.disk)) := by
  -- a saving only ends well at a path that ends in a name
  obtain ⟨name, hname, hsaves, hloads, hloaded⟩ :=
    exists_name_of_saveWith hlossless hsuits hrestorable hsaved
  rw [hname]
  constructor
  · intro hproper
    have hother : name ≠ ".gz" := fun heq => hproper (congrArg some heq)
    rw [if_neg hother] at hloaded
    rw [bne_iff_ne.2 hother, Bool.and_true] at hloads
    exact ⟨hloads, hloaded⟩
  · intro hbare
    obtain rfl : name = ".gz" := Option.some.inj hbare
    rw [bne_self_eq_false, Bool.and_false] at hloads
    exact ⟨hsaves, hloads, hloaded⟩

/-- A saving on the empty disk that ends well. -/
theorem exists_saved (document : Document) (path : String)
    (h : ((document.saveWith .stored path Config.default :
      StateM FaultyDisk (Except SaveError Unit)).run ⟨Disk.empty, []⟩).1 = .ok ()) :
    ∃ after, (document.saveWith .stored path Config.default :
      StateM FaultyDisk (Except SaveError Unit)).run ⟨Disk.empty, []⟩ = (.ok (), after) := by
  generalize (document.saveWith .stored path Config.default :
    StateM FaultyDisk (Except SaveError Unit)).run ⟨Disk.empty, []⟩ = outcome at h ⊢
  exact ⟨outcome.2, Prod.ext h rfl⟩

/-- A stream of one value that is hard to read. -/
def hardStream : Document :=
  .stream [extremes]

/-- The stream comes back from a compressed file. -/
theorem load_of_saveWith_hardStream :
    Gzip.Compressor.stored.Lossless ∧ hardStream.Suits (.ofPath "d.jsonl.gz") ∧
      (∀ value ∈ hardStream.values, Json.Restorable value) ∧
      ∃ after, (hardStream.saveWith .stored "d.jsonl.gz" Config.default :
          StateM FaultyDisk (Except SaveError Unit)).run ⟨Disk.empty, []⟩ = (.ok (), after) ∧
        loadsCompressed "d.jsonl.gz" = savesCompressed "d.jsonl.gz" ∧
        (load "d.jsonl.gz" : StateM Disk (Except LoadError Document)).run after.disk =
          (.ok hardStream, after.disk) := by
  have hsuits : hardStream.Suits (.ofPath "d.jsonl.gz") := by
    have hformat : Format.ofPath "d.jsonl.gz" = .jsonLines := by decide +kernel
    rw [hformat]
    exact .stream (by simp)
  have hrestorable : ∀ value ∈ hardStream.values, Json.Restorable value :=
    List.forall_mem_singleton.2 restorable_extremes
  obtain ⟨after, hsaved⟩ := exists_saved hardStream "d.jsonl.gz" (by decide +kernel)
  have hname : Files.fileName? "d.jsonl.gz" ≠ some ".gz" := by decide +kernel
  exact ⟨Gzip.Compressor.lossless_stored, hsuits, hrestorable, after, hsaved,
    (load_of_saveWith Gzip.Compressor.lossless_stored Config.default hsuits hrestorable hsaved).1
      hname⟩

/-- A document with one property. -/
def smallDocument : Document :=
  .single (.object [("a", .scalar (.number (.integer 1 (by decide))))])

/-- A file with the name `.gz` is compressed by saving and not decompressed by loading, which fails. -/
theorem not_loaded_bareEnding :
    smallDocument.Suits (.ofPath ".gz") ∧
      (∀ value ∈ smallDocument.values, Json.Restorable value) ∧
      ∃ after, (smallDocument.saveWith .stored ".gz" Config.default :
          StateM FaultyDisk (Except SaveError Unit)).run ⟨Disk.empty, []⟩ = (.ok (), after) ∧
        savesCompressed ".gz" = true ∧ loadsCompressed ".gz" = false ∧
        (load ".gz" : StateM Disk (Except LoadError Document)).run after.disk =
          (.error (.read ".gz"), after.disk) := by
  have hsuits : smallDocument.Suits (.ofPath ".gz") := by
    have hformat : Format.ofPath ".gz" = .json := by decide +kernel
    rw [hformat]
    exact .single _
  have hrestorable : ∀ value ∈ smallDocument.values, Json.Restorable value := by
    refine List.forall_mem_singleton.2 ⟨?_, by decide, ?_⟩
    · simp [Tree.WellFormed, Tree.WellFormedProperties, Properties.names]
    · intro x hx
      simp [Tree.numbers, Tree.propertyNumbers] at hx
  obtain ⟨after, hsaved⟩ := exists_saved smallDocument ".gz" (by decide +kernel)
  refine ⟨hsuits, hrestorable, after, hsaved, by decide, by decide +kernel, ?_⟩
  -- the name is found to be the whole path
  obtain ⟨name, hname, -, -, hloaded⟩ :=
    exists_name_of_saveWith Gzip.Compressor.lossless_stored hsuits hrestorable hsaved
  have hown : Files.fileName? ".gz" = some ".gz" := by decide +kernel
  rwa [if_pos (Option.some.inj (hname.symm.trans hown))] at hloaded

end Document

end PartialResponse
