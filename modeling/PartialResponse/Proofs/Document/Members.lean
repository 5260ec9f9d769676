import PartialResponse.Document.File
import PartialResponse.Files.Disk
import PartialResponse.Proofs.Document.Detection
import PartialResponse.Proofs.Gzip.Members

/-!
# PartialResponse.Proofs.Document.Members — documents in files of several members

A compressed file of several members is read as if the first one were all of it, from a
path as well as from input of unknown format. What the other members hold is dropped
without an error, so the document may lack records that are in the file.
-/

namespace PartialResponse.Document

open Text.Utf8

variable {path : String} {files : List (List UInt8)} {first : List Char} {others : List (List Char)}

/-- Files of one member each, with the texts that they hold. -/
def Members (files : List (List UInt8)) (texts : List (List Char)) : Prop :=
  List.Forall₂ (fun file text => Gzip.IsMember file (encode text)) files texts

/-- What a text is read as in the format that a path tells. -/
def readAs (path : String) (text : List Char) : Except LoadError Document :=
  (read (Format.ofPath path) (.ofList text)).mapError .document

/-- Decompressing stops behind the first member. -/
theorem decompress?_flatten (h : Members files (first :: others)) :
    Gzip.decompress? files.flatten = some (encode first) := by
  have hcontents : List.Forall₂ Gzip.IsMember files ((first :: others).map encode) :=
    List.forall₂_map_right_iff.2 h
  rw [Gzip.decompress?_flatten hcontents, List.map_cons, List.head?_cons]

/-- So the text is that of the first one. -/
theorem text?_flatten (h : Members files (first :: others)) : Gzip.text? files.flatten = some first := by
  rw [Gzip.text?, decompress?_flatten h, Option.bind_some, decode?_encode]

/-- The document is read from this text alone. -/
theorem ofFile_flatten (h : Members files (first :: others)) (hpath : loadsCompressed path = true) :
    ofFile path (.ok files.flatten) = readAs path first := by
  have htext : decodeFile path (.ok files.flatten) = .ok first := by
    rw [decodeFile, if_pos hpath]
    simp only [text?_flatten h]
  simp only [ofFile, htext, readAs]
  cases read (Format.ofPath path) (.ofList first) <;> rfl

/-- Loading such a file reads it, and leaves the disk as it is. -/
theorem run_load_flatten (h : Members files (first :: others)) (hpath : loadsCompressed path = true)
    {disk : Disk} (hfile : disk.entry path = .ok (.file files.flatten)) :
    (load path : StateM Disk (Except LoadError Document)).run disk = (readAs path first, disk) := by
  rw [load, Disk.run_bind (Disk.run_contents hfile), ofFile_flatten h hpath]
  rfl

/-- The same text without compression is input of the same meaning. -/
theorem readInput_flatten (h : Members files (first :: others)) :
    readInput files.flatten = readInput (encode first) := by
  have htext : decodeInput files.flatten = .ok first := by
    rw [decodeInput, if_pos (Gzip.isMarked_of_decompress? (decompress?_flatten h))]
    simp only [text?_flatten h]
  rw [readInput, readInput, htext, decodeInput_encode]

/-- **Of a file of several members the first one is read.** Loading a compressed file gives what the text
of its first member is read as in the format of the path, and bytes of unknown format give what the text
of the first member gives. That is what all texts together are read as if the other members hold
nothing. -/
theorem load_of_members (h : Members files (first :: others)) (hpath : loadsCompressed path = true)
    {disk : Disk} (hfile : disk.entry path = .ok (.file files.flatten)) :
    (load path : StateM Disk (Except LoadError Document)).run disk = (readAs path first, disk) ∧
      readInput files.flatten = readInput (encode first) ∧
      ((∀ text ∈ others, text = []) →
        (load path : StateM Disk (Except LoadError Document)).run disk =
            (readAs path (first :: others).flatten, disk) ∧
          readInput files.flatten = readInput (encode (first :: others).flatten)) := by
  have hload := run_load_flatten h hpath hfile
  have hinput := readInput_flatten h
  refine ⟨hload, hinput, ?_⟩
  intro hothers
  -- empty texts add nothing to the first one
  have hwhole : (first :: others).flatten = first := by
    rw [List.flatten_cons, List.flatten_eq_nil_iff.2 hothers, List.append_nil]
  rw [hwhole]
  exact ⟨hload, hinput⟩

/-! ## A record that is lost -/

/-- An object with one property. -/
def record (n : Int64) : Tree :=
  .object [("a", .ofInt64 n)]

/-- A record is read back from its text. -/
theorem restorable_record (n : Int64) : Json.Restorable (record n) where
  wellFormed := ⟨List.nodup_cons.2 ⟨List.not_mem_nil, List.nodup_nil⟩, trivial, trivial⟩
  depth_le := by
    have hdepth : (record n).depth = 1 := rfl
    rw [hdepth]
    decide
  floatsReadBack := by
    intro x hx
    simp [record, Tree.ofInt64, Number.ofInt64, Tree.numbers, Tree.propertyNumbers] at hx

/-- A compressed file for each value, which holds the value on a line. -/
def filesOf (values : List Tree) : List (List UInt8) :=
  values.map fun value => Gzip.Compressor.stored.compress (encode (writeLines [value]))

/-- Each file is one member, with the line of its value. -/
theorem members_filesOf (values : List Tree) :
    Members (filesOf values) (values.map fun value => writeLines [value]) := by
  rw [Members, filesOf, List.forall₂_map_left_iff, List.forall₂_map_right_iff, List.forall₂_same]
  intro value hvalue
  exact Gzip.isMember_stored _

/-- A disk with a file of two members, each of which holds a record. -/
def twoMembers : Disk :=
  Disk.empty.put (Disk.workplace ++ ["d.jsonl.gz"]) (.file (filesOf [record 1, record 2]).flatten)

/-- The file stands in the working directory. -/
theorem entry_twoMembers :
    twoMembers.entry "d.jsonl.gz" = .ok (.file (filesOf [record 1, record 2]).flatten) :=
  rfl

/-- Values that are read back one by one are read back from their lines. -/
theorem readAs_writeLines {values : List Tree} (h : ∀ value ∈ values, Json.Restorable value)
    (hne : values ≠ []) : readAs "d.jsonl.gz" (writeLines values) = .ok (stream values) := by
  have hformat : Format.ofPath "d.jsonl.gz" = .jsonLines := by decide +kernel
  rw [readAs, hformat, read, String.toList_ofList, readJsonLines_writeLines h hne]
  rfl

/-- The two records: only the line of the first one is read. -/
theorem load_of_members_records :
    Members (filesOf [record 1, record 2]) [writeLines [record 1], writeLines [record 2]] ∧
      loadsCompressed "d.jsonl.gz" = true ∧
      twoMembers.entry "d.jsonl.gz" = .ok (.file (filesOf [record 1, record 2]).flatten) ∧
      (load "d.jsonl.gz" : StateM Disk (Except LoadError Document)).run twoMembers =
        (readAs "d.jsonl.gz" (writeLines [record 1]), twoMembers) := by
  have hmembers := members_filesOf [record 1, record 2]
  have hpath : loadsCompressed "d.jsonl.gz" = true := by decide +kernel
  exact ⟨hmembers, hpath, entry_twoMembers, (load_of_members hmembers hpath entry_twoMembers).1⟩

/-- Two records are compressed one by one and put into one file. Loading the file gives the first one, and
so does reading its bytes as input, although all the text holds both. -/
theorem record_lost :
    Members (filesOf [record 1, record 2]) [writeLines [record 1], writeLines [record 2]] ∧
      (load "d.jsonl.gz" : StateM Disk (Except LoadError Document)).run twoMembers =
        (.ok (stream [record 1]), twoMembers) ∧
      readAs "d.jsonl.gz" (writeLines [record 1, record 2]) = .ok (stream [record 1, record 2]) ∧
      readInput (filesOf [record 1, record 2]).flatten = .ok (single (record 1)) ∧
      readInput (encode (writeLines [record 1, record 2])) = .ok (stream [record 1, record 2]) := by
  have hmembers := members_filesOf [record 1, record 2]
  have hpath : loadsCompressed "d.jsonl.gz" = true := by decide +kernel
  have hboth : ∀ value ∈ [record 1, record 2], Json.Restorable value := by
    simp [restorable_record]
  have hone : ∀ value ∈ [record 1], Json.Restorable value := by
    simp [restorable_record]
  have hfirst : readJson (writeLines [record 1]) = .ok (single (record 1)) := by
    simpa [writeLines] using readJson_write (restorable_record 1) .compact
  refine ⟨hmembers, ?_, readAs_writeLines hboth (by simp), ?_, ?_⟩
  · rw [run_load_flatten hmembers hpath entry_twoMembers, readAs_writeLines hone (by simp)]
  · rw [readInput_flatten hmembers, readInput_of_readJson hfirst]
  · exact readInput_of_readJsonLines (readJson_writeLines hboth (Nat.le_refl 2))
      (readJsonLines_writeLines hboth (by simp))

end PartialResponse.Document
