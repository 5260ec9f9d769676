import Mathlib.Data.List.Forall2
import Mathlib.Order.Bounds.Basic
import PartialResponse.Document.Reader
import PartialResponse.Proofs.Json.Trailing
import PartialResponse.Proofs.Text.Lines

/-!
# PartialResponse.Proofs.Document.JsonLines — what a JSON Lines text is read as

A line is blank, holds a value, or is at fault (`AtFault`). `readLines` gives the values
in order if no line is at fault (`readLines_eq_ok_iff`), and stops at the first one that
is (`readLines_eq_error_iff`); both go by induction on the lines, with the number of the
first one left open. How the lines end makes no difference, so what is true of the lines
that make up a text is true of the text, however they are laid out: `Reads` says what
that is, and `readJsonLines_lines` that it holds of every text.
-/

namespace PartialResponse.Document

variable {line : List Char} {lines : List (List Char)} {number : Nat}

/-- A line is at fault if it is not blank and yet no JSON text. -/
def AtFault (line : List Char) : Prop :=
  Text.isBlankText line = false ∧ Json.parse? line = none

/-- The numbers of the lines at fault, if the first line has the given number. -/
def faults (number : Nat) (lines : List (List Char)) : Set Nat :=
  {n | ∃ line, (line, n) ∈ lines.zipIdx number ∧ AtFault line}

/-- What is read from lines. -/
structure Reads (lines : List (List Char)) (result : Except ReadError Document) : Prop where
  /-- There is a document if some line is not blank, and every such line is a JSON text. -/
  ok_iff : (∃ values, result = .ok (stream values)) ↔
    (∃ line ∈ lines, Text.isBlankText line = false) ∧
      ∀ line ∈ lines, Text.isBlankText line = false → ∃ value, Json.parse? line = some value
  /-- It is the stream of the values of these lines, in order. -/
  eq_stream : ∀ document, result = .ok document → ∃ values, document = stream values ∧
    List.Forall₂ (fun line value => Json.parse? line = some value)
      (lines.filter (!Text.isBlankText ·)) values
  /-- If a line is at fault, the error names the number of the first such line. All lines count. -/
  fault_iff : ∀ n, result = .error (.jsonLine n) ↔ IsLeast (faults 1 lines) n
  /-- The error says that there is no JSON if all lines are blank. -/
  blank_iff : result = .error .noJsonLines ↔ ∀ line ∈ lines, Text.isBlankText line = true
  /-- There are no other errors. This is what is said about them. -/
  error_cases : ∀ e, result = .error e →
    (e = .noJsonLines ∧ e.message = "No valid JSON found in JSONL content") ∨
      ∃ n, e = .jsonLine n ∧ e.message = s!"Invalid JSON on line {n}"

/-! ## Lines that are read -/

/-- A blank line gives nothing, but it is counted. -/
theorem readLines_blank (h : Text.isBlankText line = true) (number : Nat)
    (rest : List (List Char)) : readLines number (line :: rest) = readLines (number + 1) rest := by
  rw [readLines, if_pos h]

/-- A line with a value gives this value in front of the others. -/
theorem readLines_value {value : Tree} (h : Text.isBlankText line = false)
    (hvalue : Json.parse? line = some value) (number : Nat) (rest : List (List Char)) :
    readLines number (line :: rest) = (readLines (number + 1) rest).map (value :: ·) := by
  rw [readLines, if_neg (by simp [h]), hvalue]

/-- A line at fault ends the reading; what comes behind it is not looked at. -/
theorem readLines_atFault (h : AtFault line) (number : Nat) (rest : List (List Char)) :
    readLines number (line :: rest) = .error (.jsonLine number) := by
  rw [readLines, if_neg (by simp [h.1]), h.2]

/-- The three kinds of lines. -/
theorem line_cases (line : List Char) : Text.isBlankText line = true ∨
    (Text.isBlankText line = false ∧ ∃ value, Json.parse? line = some value) ∨ AtFault line := by
  cases hblank : Text.isBlankText line with
  | true => exact .inl rfl
  | false =>
    cases hparse : Json.parse? line with
    | some value => exact .inr (.inl ⟨rfl, value, rfl⟩)
    | none => exact .inr (.inr ⟨hblank, hparse⟩)

/-- Lines are read as values just if these are the values of the lines that are not blank. -/
theorem readLines_eq_ok_iff {values : List Tree} : readLines number lines = .ok values ↔
    List.Forall₂ (fun line value => Json.parse? line = some value)
      (lines.filter (!Text.isBlankText ·)) values := by
  -- the number of the first line is left open, since each line moves it on
  induction lines generalizing number values with
  | nil =>
    constructor
    · intro h
      cases h
      exact .nil
    · intro h
      cases h
      rfl
  | cons line rest ih =>
    rcases line_cases line with hblank | ⟨hblank, value, hvalue⟩ | hfault
    -- a blank line is passed over on both sides
    · rw [readLines_blank hblank, List.filter_cons_of_neg (by simp [hblank]), ih]
    · rw [readLines_value hblank hvalue, List.filter_cons_of_pos (by simp [hblank]),
        List.forall₂_cons_left_iff]
      constructor
      · intro h
        cases hrest : readLines (number + 1) rest with
        | error e => simp [hrest, Except.map] at h
        | ok more =>
          rw [hrest] at h
          cases h
          exact ⟨value, more, hvalue, ih.1 hrest, rfl⟩
      · rintro ⟨value', more, hvalue', hmore, rfl⟩
        rw [ih.2 hmore, Option.some.inj (hvalue.symm.trans hvalue')]
        rfl
    · rw [readLines_atFault hfault, List.filter_cons_of_pos (by simp [hfault.1]),
        List.forall₂_cons_left_iff]
      constructor
      · intro h
        cases h
      · rintro ⟨value, more, hvalue, -, -⟩
        rw [hfault.2] at hvalue
        cases hvalue

/-! ## Lines at fault -/

/-- The first line is at fault under the number given, the others count from the next one. -/
theorem faults_cons (number : Nat) (line : List Char) (rest : List (List Char)) :
    faults number (line :: rest) = {n | n = number ∧ AtFault line} ∪ faults (number + 1) rest := by
  ext n
  simp only [faults, List.zipIdx_cons, List.mem_cons, Prod.mk.injEq, Set.mem_ofPred_eq,
    Set.mem_union]
  constructor
  · rintro ⟨line', ⟨rfl, rfl⟩ | hmem, hfault⟩
    · exact .inl ⟨rfl, hfault⟩
    · exact .inr ⟨line', hmem, hfault⟩
  · rintro (⟨rfl, hfault⟩ | ⟨line', hmem, hfault⟩)
    · exact ⟨line, .inl ⟨rfl, rfl⟩, hfault⟩
    · exact ⟨line', .inr hmem, hfault⟩

/-- A line that is not at fault adds no number. -/
theorem faults_cons_of_not_atFault (h : ¬AtFault line) (number : Nat) (rest : List (List Char)) :
    faults number (line :: rest) = faults (number + 1) rest := by
  rw [faults_cons]
  simp [h]

/-- Lines are counted upwards. -/
theorem le_of_mem_faults {n : Nat} (h : n ∈ faults number lines) : number ≤ n := by
  obtain ⟨line, hmem, -⟩ := h
  exact List.le_snd_of_mem_zipIdx hmem

/-- A first line at fault is the first one of all. -/
theorem isLeast_faults_cons (h : AtFault line) (number : Nat) (rest : List (List Char)) :
    IsLeast (faults number (line :: rest)) number := by
  constructor
  · rw [faults_cons]
    exact .inl ⟨rfl, h⟩
  · intro n hn
    exact le_of_mem_faults hn

/-- Lines are not read just if one is at fault, and the first such line is the one that is named. -/
theorem readLines_eq_error_iff {e : ReadError} : readLines number lines = .error e ↔
    ∃ n, e = .jsonLine n ∧ IsLeast (faults number lines) n := by
  induction lines generalizing number with
  | nil =>
    constructor
    · intro h
      cases h
    · rintro ⟨n, -, ⟨line, hmem, -⟩, -⟩
      cases hmem
  | cons line rest ih =>
    rcases line_cases line with hblank | ⟨hblank, value, hvalue⟩ | hfault
    · rw [readLines_blank hblank, ih, faults_cons_of_not_atFault (by simp [AtFault, hblank])]
    -- a value in front does not matter to an error further on
    · rw [readLines_value hblank hvalue, faults_cons_of_not_atFault (by simp [AtFault, hvalue]),
        ← ih]
      cases readLines (number + 1) rest with
      | ok more => simp [Except.map]
      | error e' => simp [Except.map]
    · -- nothing behind the line is looked at, and no line behind it has a smaller number
      rw [readLines_atFault hfault]
      have hleast := isLeast_faults_cons hfault number rest
      constructor
      · intro h
        cases h
        exact ⟨number, rfl, hleast⟩
      · rintro ⟨n, rfl, hn⟩
        rw [hn.unique hleast]

/-! ## Lines of a text -/

/-- What stands in front of the line feed makes no difference to a line. -/
theorem append_lead (line : List Char) (lineEnd : Text.LineEnd) :
    Text.isBlankText (line ++ lineEnd.lead) = Text.isBlankText line ∧
      Json.parse? (line ++ lineEnd.lead) = Json.parse? line := by
  cases lineEnd with
  | lf => simp [Text.LineEnd.lead]
  | crlf =>
    constructor
    · have hreturn : Text.isBlank '\r' = true := by decide
      simp [Text.LineEnd.lead, Text.isBlankText, hreturn]
    · exact Json.parse?_append_space (by decide) line

/-- Lines are read alike with and without what stands in front of their line feeds. -/
theorem readLines_append_lead {whole : List (List Char)}
    (h : List.Forall₂ (fun line read => ∃ lineEnd, read = line ++ Text.LineEnd.lead lineEnd)
      lines whole) (number : Nat) : readLines number whole = readLines number lines := by
  induction h generalizing number with
  | nil => rfl
  | @cons line read rest more hline hrest ih =>
    obtain ⟨lineEnd, rfl⟩ := hline
    obtain ⟨hblank, hparse⟩ := append_lead line lineEnd
    rw [readLines, readLines, hblank, hparse, ih]

/-! ## Texts -/

section

variable {text : List Char}

/-- A text is read as the stream of what is read from its lines, if that is not empty. -/
theorem readJsonLines_eq_ok_iff_readLines {document : Document} :
    readJsonLines text = .ok document ↔
      ∃ values, values ≠ [] ∧ readLines 1 (Text.lines text) = .ok values ∧ document = stream values := by
  rw [readJsonLines]
  constructor
  · intro hread
    cases hlines : readLines 1 (Text.lines text) with
    | error e =>
      rw [hlines] at hread
      cases hread
    | ok values =>
      rw [hlines] at hread
      cases values with
      | nil => cases hread
      | cons value more =>
        cases hread
        exact ⟨_, List.cons_ne_nil value more, rfl, rfl⟩
  · rintro ⟨values, hne, hlines, rfl⟩
    rw [hlines]
    cases values with
    | nil => exact absurd rfl hne
    | cons value more => rfl

/-- The same of the lines that make up the text. -/
theorem readJsonLines_eq_ok_iff (h : Text.LaidOut lines text) {document : Document} :
    readJsonLines text = .ok document ↔
      ∃ values, values ≠ [] ∧ readLines 1 lines = .ok values ∧ document = stream values := by
  rw [readJsonLines_eq_ok_iff_readLines, readLines_append_lead h.forall₂_lines]

/-- An error is that of the lines, or there is no value in them. -/
theorem readJsonLines_eq_error_iff (h : Text.LaidOut lines text) {e : ReadError} :
    readJsonLines text = .error e ↔
      readLines 1 lines = .error e ∨ (readLines 1 lines = .ok [] ∧ e = .noJsonLines) := by
  rw [readJsonLines, readLines_append_lead h.forall₂_lines]
  cases readLines 1 lines with
  | error e' => simp
  | ok values =>
    cases values with
    | nil => simp [eq_comm]
    | cons value more => simp

/-- No value is read just if all lines are blank. -/
theorem readLines_eq_nil_iff :
    readLines number lines = .ok [] ↔ ∀ line ∈ lines, Text.isBlankText line = true := by
  rw [readLines_eq_ok_iff, List.forall₂_nil_right_iff, List.filter_eq_nil_iff]
  simp

/-- There is a value for every line that is not blank if no line is at fault. -/
theorem exists_readLines_iff : (∃ values, readLines number lines = .ok values) ↔
    ∀ line ∈ lines, Text.isBlankText line = false → ∃ value, Json.parse? line = some value := by
  constructor
  · rintro ⟨values, hread⟩ line hmem hblank
    have hvalues := (readLines_eq_ok_iff.1 hread).imp (S := fun line value =>
      (∃ value, Json.parse? line = some value) ∧ Json.parse? line = some value)
      fun _ value hvalue => ⟨⟨value, hvalue⟩, hvalue⟩
    have hfilter : line ∈ lines.filter (!Text.isBlankText ·) :=
      List.mem_filter.2 ⟨hmem, by simp [hblank]⟩
    exact ((List.forall₂_and_left _ _).1 hvalues).1 line hfilter
  · intro hall
    cases hread : readLines number lines with
    | ok values => exact ⟨values, rfl⟩
    | error e =>
      obtain ⟨n, -, ⟨line, hmem, hblank, hparse⟩, -⟩ := readLines_eq_error_iff.1 hread
      obtain ⟨value, hvalue⟩ := hall line (List.fst_mem_of_mem_zipIdx hmem) hblank
      rw [hparse] at hvalue
      cases hvalue

/-- There is a document if some line is not blank and none is at fault. -/
theorem exists_readJsonLines_iff (h : Text.LaidOut lines text) :
    (∃ values, readJsonLines text = .ok (stream values)) ↔
      (∃ line ∈ lines, Text.isBlankText line = false) ∧
        ∀ line ∈ lines, Text.isBlankText line = false → ∃ value, Json.parse? line = some value := by
  simp only [readJsonLines_eq_ok_iff h]
  constructor
  · rintro ⟨values, values', hne, hread, -⟩
    constructor
    · -- blank lines alone would leave no value
      by_contra hblank
      have hall : ∀ line ∈ lines, Text.isBlankText line = true := by simpa using hblank
      rw [readLines_eq_nil_iff.2 hall] at hread
      cases hread
      exact hne rfl
    · exact exists_readLines_iff.1 ⟨values', hread⟩
  · rintro ⟨⟨line, hmem, hline⟩, hall⟩
    obtain ⟨values, hread⟩ := exists_readLines_iff.2 hall
    refine ⟨values, values, ?_, hread, rfl⟩
    rintro rfl
    rw [readLines_eq_nil_iff.1 hread line hmem] at hline
    cases hline

/-- What is read from a text is what is read from the lines that make it up. -/
theorem reads_of_laidOut (h : Text.LaidOut lines text) : Reads lines (readJsonLines text) where
  ok_iff := exists_readJsonLines_iff h
  eq_stream := by
    intro document hread
    obtain ⟨values, -, hlines, rfl⟩ := (readJsonLines_eq_ok_iff h).1 hread
    exact ⟨values, rfl, readLines_eq_ok_iff.1 hlines⟩
  fault_iff := by
    intro n
    rw [readJsonLines_eq_error_iff h, readLines_eq_error_iff]
    simp
  blank_iff := by
    rw [readJsonLines_eq_error_iff h, readLines_eq_error_iff, readLines_eq_nil_iff]
    simp
  error_cases := by
    intro e hread
    rcases (readJsonLines_eq_error_iff h).1 hread with hlines | ⟨-, rfl⟩
    · obtain ⟨n, rfl, -⟩ := readLines_eq_error_iff.1 hlines
      exact .inr ⟨n, rfl, rfl⟩
    · exact .inl ⟨rfl, rfl⟩

end

/-- **What a JSON Lines text is read as.** Every text is made up of lines in just one way, whatever
mix of ends they have. It is read as the stream of the values of the lines that are not blank. If
one of these is no JSON text, the error names the first such line by its number among all lines. If
all lines are blank, the error says that there is no JSON. -/
theorem readJsonLines_lines (text : List Char) :
    (∃! lines, Text.LaidOut lines text) ∧
      ∀ lines, Text.LaidOut lines text → Reads lines (readJsonLines text) := by
  constructor
  · exact Text.existsUnique_laidOut text
  · intro lines h
    exact reads_of_laidOut h

/-- A blank line, a line that ends with a carriage return and a line feed, and one that is no JSON
text and has no end: the third line is named. -/
theorem readJsonLines_lines_mixed :
    Text.LaidOut [[' '], ['[', ']'], ['{']] " \n[]\r\n\x7b".toList ∧
      readJsonLines " \n[]\r\n\x7b".toList = .error (.jsonLine 3) := by
  have hlines : Text.LaidOut [[' '], ['[', ']'], ['{']] " \n[]\r\n\x7b".toList :=
    .cons .lf (by decide) (by decide)
      (.cons .crlf (by decide) (by decide) (.last (by decide) (by decide)))
  have hreads := (readJsonLines_lines " \n[]\r\n\x7b".toList).2 _ hlines
  have hbrackets : ¬AtFault ['[', ']'] := by
    rintro ⟨-, hnone⟩
    have hsome : (Json.parse? ['[', ']']).isSome = true := by decide +kernel
    rw [hnone] at hsome
    cases hsome
  have hbrace : AtFault ['{'] := ⟨rfl, Option.isNone_iff_eq_none.1 (by decide +kernel)⟩
  refine ⟨hlines, (hreads.fault_iff 3).2 ?_⟩
  rw [faults_cons_of_not_atFault (fun h => Bool.noConfusion h.1),
    faults_cons_of_not_atFault hbrackets]
  exact isLeast_faults_cons hbrace 3 []

end PartialResponse.Document
