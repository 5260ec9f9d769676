import PartialResponse.Document.Prune
import PartialResponse.Proofs.Document.Detection
import PartialResponse.Proofs.Document.JsonLines
import PartialResponse.Proofs.Json.Bounds
import PartialResponse.Proofs.Prune.Reordering

/-!
# PartialResponse.Proofs.Document.Conversion — pruning a JSON Lines text

To convert a JSON Lines text is to read it, to prune each value and to write what is left
as JSON Lines. This is done line by line: what a line becomes depends on nothing but
the line, and there is a line for every value, even for one of which nothing is left.
So texts can be put together before or after, and a text that has been converted is
converted to itself.
-/

namespace PartialResponse.Document

variable {c : Criterion} {config : Config} {text out : List Char} {lines : List (List Char)}
  {values : List Tree}

/-- A JSON Lines text with its values pruned. Of what has been read there is always a text
(`convertLines_eq_ok_iff`). -/
def convertLines (c : Criterion) (config : Config) (text : List Char) :
    Except ReadError (Option (List Char)) :=
  (readJsonLines text).map fun document => (document.prune c).write? .jsonLines config

/-- What a line becomes: the compact text of what is left of its value. -/
def ConvertsTo (c : Criterion) (line converted : List Char) : Prop :=
  ∃ value, Json.parse? line = some value ∧ converted = Json.write .compact 0 (value.prune c)

/-- Whether the lines that are not blank hold values, in order. -/
def Hold (lines : List (List Char)) (values : List Tree) : Prop :=
  List.Forall₂ (fun line value => Json.parse? line = some value)
    (lines.filter (!Text.isBlankText ·)) values

/-- The lines hold the values that the reader finds in them. -/
theorem hold_iff : Hold lines values ↔ readLines 1 lines = .ok values :=
  readLines_eq_ok_iff.symm

/-! ## One text -/

/-- A text is converted if every line that is not blank holds a value and there is such a line. -/
theorem convertLines_eq_ok_iff : convertLines c config text = .ok (some out) ↔
    ∃ values, values ≠ [] ∧ Hold (Text.lines text) values ∧ out = writeLines (values.map (Tree.prune c)) := by
  simp only [hold_iff]
  constructor
  · intro h
    cases hread : readJsonLines text with
    | error e =>
      rw [convertLines, hread] at h
      cases h
    | ok document =>
      obtain ⟨values, hne, hlines, rfl⟩ := readJsonLines_eq_ok_iff_readLines.1 hread
      rw [convertLines, hread] at h
      obtain rfl := Option.some.inj (Except.ok.inj h)
      exact ⟨values, hne, hlines, rfl⟩
  · rintro ⟨values, hne, hlines, rfl⟩
    rw [convertLines, readJsonLines_eq_ok_iff_readLines.2 ⟨values, hne, hlines, rfl⟩]
    rfl

/-- What has been read is converted line by line, if there is anything. -/
theorem convertLines_of_laidOut (h : Text.LaidOut lines text) (hvalues : Hold lines values) :
    convertLines c config text =
      if values = [] then .error .noJsonLines
      else .ok (some (writeLines (values.map (Tree.prune c)))) := by
  have hread := hold_iff.1 hvalues
  split
  · next hempty =>
    rw [hempty] at hread
    rw [convertLines, (readJsonLines_eq_error_iff h).2 (.inr ⟨hread, rfl⟩)]
    rfl
  · next hne =>
    rw [convertLines, (readJsonLines_eq_ok_iff h).2 ⟨values, hne, hread, rfl⟩]
    rfl

/-- Each line becomes the text of what is left of its value. -/
theorem forall₂_convertsTo (h : Hold lines values) :
    List.Forall₂ (ConvertsTo c) (lines.filter (!Text.isBlankText ·))
      (values.map fun value => Json.write .compact 0 (value.prune c)) := by
  rw [List.forall₂_map_right_iff]
  exact h.imp fun line value hvalue => ⟨value, hvalue, rfl⟩

/-! ## Two texts -/

/-- The lines of one text behind those of another. -/
theorem Hold.append {front back : List (List Char)} {values values' : List Tree} (h : Hold front values)
    (h' : Hold back values') : Hold (front ++ back) (values ++ values') := by
  rw [Hold, List.filter_append]
  exact List.rel_append h h'

/-- An empty line between two texts is blank. -/
theorem hold_append_newline {front back : List Char} {values values' : List Tree}
    (h : Hold (Text.lines front) values) (h' : Hold (Text.lines back) values') :
    Hold (Text.lines (front ++ '\n' :: back)) (values ++ values') := by
  -- if the first text ends with a line feed, the one between makes an empty line
  rcases Text.lines_append_newline_append front back with hlines | hlines
  · rw [hlines]
    exact h.append h'
  · have hempty : Hold ([] :: Text.lines back) values' := h'
    rw [hlines]
    exact h.append hempty

/-- Values are written one by one. -/
@[simp]
theorem writeLines_append (values values' : List Tree) :
    writeLines (values ++ values') = writeLines values ++ writeLines values' :=
  List.flatMap_append

/-- Two texts with a line feed between them. -/
theorem convertLines_append {text' out' : List Char} (h : convertLines c config text = .ok (some out))
    (h' : convertLines c config text' = .ok (some out')) :
    convertLines c config (text ++ '\n' :: text') = .ok (some (out ++ out')) := by
  obtain ⟨values, hne, hvalues, rfl⟩ := convertLines_eq_ok_iff.1 h
  obtain ⟨values', -, hvalues', rfl⟩ := convertLines_eq_ok_iff.1 h'
  rw [convertLines_eq_ok_iff]
  refine ⟨values ++ values', by simp [hne], hold_append_newline hvalues hvalues', ?_⟩
  rw [List.map_append, writeLines_append]

/-! ## Twice -/

/-- What is left of a value that has been read can be read again, if its numbers can. -/
theorem restorable_prune {line : List Char} {value : Tree} (h : Json.parse? line = some value)
    (hfloats : Json.FloatsReadBack (value.prune c)) : Json.Restorable (value.prune c) where
  wellFormed := Tree.wellFormed_prune (Json.fits_of_parse? h).wellFormed c
  depth_le := by
    have hdepth := (Json.fits_of_parse? h).depth_le
    have hle := Tree.depth_prune_le value c
    omega
  floatsReadBack := hfloats

/-- Every value stands on a line. -/
theorem Hold.exists_line (h : Hold lines values) {value : Tree} (hvalue : value ∈ values) :
    ∃ line, Json.parse? line = some value := by
  have hlines := (List.Forall₂.flip h).imp (S := fun value _ =>
    (∃ line, Json.parse? line = some value) ∧ True) fun value line hline => ⟨⟨line, hline⟩, trivial⟩
  exact ((List.forall₂_and_left _ _).1 hlines).1 value hvalue

/-- Pruning twice is pruning once. -/
theorem prune_self (value : Tree) : (value.prune c).prune c = value.prune c :=
  Tree.prune_prune_of_keeps (fun _ h => h) value

/-- What has been converted is converted to itself. -/
theorem convertLines_self (h : convertLines c config text = .ok (some out))
    (hfloats : ∀ values, readJsonLines text = .ok (stream values) →
      ∀ value ∈ values, Json.FloatsReadBack (value.prune c)) :
    convertLines c config out = .ok (some out) := by
  obtain ⟨values, hne, hvalues, rfl⟩ := convertLines_eq_ok_iff.1 h
  have hread := readJsonLines_eq_ok_iff_readLines.2 ⟨values, hne, hold_iff.1 hvalues, rfl⟩
  have hrestorable : ∀ left ∈ values.map (Tree.prune c), Json.Restorable left := by
    intro left hleft
    obtain ⟨value, hvalue, rfl⟩ := List.mem_map.1 hleft
    obtain ⟨line, hline⟩ := hvalues.exists_line hvalue
    exact restorable_prune hline (hfloats values hread value hvalue)
  -- reading what has been written gives what is left, of which all is left
  have hpruned : (values.map (Tree.prune c)).map (Tree.prune c) = values.map (Tree.prune c) := by
    rw [List.map_map]
    exact List.map_congr_left fun value _ => prune_self value
  rw [convertLines, readJsonLines_writeLines hrestorable (by simpa using hne)]
  show Except.ok (some (writeLines ((values.map (Tree.prune c)).map (Tree.prune c)))) = _
  rw [hpruned]

/-- **Pruning a JSON Lines text goes line by line.** If every line that is not blank is a JSON text, there
is a line for each of them, which says what is left of its value and has a line feed behind it; a
text without such a line is refused. Two texts with a line feed between them become what each of
them becomes. What a text becomes stays as it is, if the floating-point numbers in it read back. -/
theorem convertLines_lineLocal (c : Criterion) (config : Config) :
    (∀ text lines, Text.LaidOut lines text →
      (∀ line ∈ lines, Text.isBlankText line = false → ∃ value, Json.parse? line = some value) →
      ∃ converted, List.Forall₂ (ConvertsTo c) (lines.filter (!Text.isBlankText ·)) converted ∧
        (∀ line ∈ converted, '\n' ∉ line) ∧
        convertLines c config text =
          if converted = [] then .error .noJsonLines
          else .ok (some (converted.flatMap fun line => line ++ ['\n']))) ∧
    (∀ text text' out out', convertLines c config text = .ok (some out) →
      convertLines c config text' = .ok (some out') →
      convertLines c config (text ++ '\n' :: text') = .ok (some (out ++ out'))) ∧
    ∀ text out, convertLines c config text = .ok (some out) →
      (∀ values, readJsonLines text = .ok (stream values) →
        ∀ value ∈ values, Json.FloatsReadBack (value.prune c)) →
      convertLines c config out = .ok (some out) := by
  refine ⟨?_, ?_, ?_⟩
  · intro text lines h hjson
    have hread : ∃ values, readLines 1 lines = .ok values := exists_readLines_iff.2 hjson
    obtain ⟨values, hread⟩ := hread
    have hvalues := hold_iff.2 hread
    refine ⟨_, forall₂_convertsTo hvalues, ?_, ?_⟩
    · intro line hline
      obtain ⟨value, -, rfl⟩ := List.mem_map.1 hline
      -- a line feed in a string is written as an escape
      exact (Json.controlFree_write _ 0).not_mem_newline
    · rw [convertLines_of_laidOut h hvalues, writeLines, List.flatMap_map, List.flatMap_map]
      simp only [List.map_eq_nil_iff]
  · intro text text' out out' h h'
    exact convertLines_append h h'
  · intro text out h hfloats
    exact convertLines_self h hfloats

/-- An object with a line feed in a string. -/
def brokenString : Tree :=
  .object [("b", .null), ("a", .ofString "\n")]

/-- A text with a blank line, of which one line ends with a carriage return and a line feed, and the last
one has no end. -/
def mixedText : List Char :=
  Json.write .compact 0 brokenString ++ ['\r'] ++ '\n' :: ([' '] ++ [] ++ '\n' :: Json.write .compact 0 extremes)

/-- Its lines. -/
def mixedLines : List (List Char) :=
  [Json.write .compact 0 brokenString, [' '], Json.write .compact 0 extremes]

/-- The lines end with a carriage return and a line feed, with a line feed, and with the text. -/
theorem laidOut_mixedText : Text.LaidOut mixedLines mixedText := by
  have hnewline : ∀ value, '\n' ∉ Json.write .compact 0 value := fun value =>
    (Json.controlFree_write value 0).not_mem_newline
  refine .cons .crlf (hnewline _) (by decide) (.cons .lf (by decide) (by decide) (.last ?_ (hnewline _)))
  simp [Json.write, extremes]

/-- Nothing in the value is lost when it is written. -/
theorem restorable_brokenString : Json.Restorable brokenString := by
  refine ⟨?_, by decide, ?_⟩
  · simp [brokenString, Tree.WellFormed, Tree.WellFormedProperties, Properties.names, Tree.null, Tree.ofString]
  · intro x hx
    simp [brokenString, Tree.numbers, Tree.propertyNumbers, Tree.null, Tree.ofString] at hx

/-- The blank line holds no value, each other line one. -/
theorem hold_mixedLines : Hold mixedLines [brokenString, extremes] := by
  have hbroken := Json.parse?_write restorable_brokenString .compact
  have hextremes := Json.parse?_write restorable_extremes .compact
  have hfilter : mixedLines.filter (!Text.isBlankText ·) =
      [Json.write .compact 0 brokenString, Json.write .compact 0 extremes] := by
    simp [mixedLines, Json.isBlankText_of_parse? hbroken, Json.isBlankText_of_parse? hextremes,
      show Text.isBlankText [' '] = true from rfl]
  rw [Hold, hfilter]
  exact .cons hbroken (.cons hextremes .nil)

/-- The criterion that keeps the properties with the name `a`. -/
def keepsA : Criterion :=
  ⟨.ofList [⟨[], ⟨"a", by decide⟩⟩], .sensitive, none⟩

/-- What is left of the values. -/
def leftOfMixed : List Tree :=
  [.object [("a", .ofString "\n")], .object [("a", (extremes.get? "a").getD .null)]]

/-- Only the properties with the name `a` are left. -/
theorem map_prune_mixed : [brokenString, extremes].map (Tree.prune keepsA) = leftOfMixed := by
  rw [List.map_cons, List.map_cons, List.map_nil, Tree.prune_eq_thin, Tree.prune_eq_thin]
  rfl

/-- The floats that are left read back. -/
theorem floatsReadBack_leftOfMixed : ∀ value ∈ leftOfMixed, Json.FloatsReadBack value := by
  have hextremes := restorable_extremes.floatsReadBack
  intro value hvalue x hx
  -- all numbers that are left are numbers of the whole value
  refine hextremes x ?_
  simp only [leftOfMixed, List.mem_cons, List.not_mem_nil, or_false] at hvalue
  rcases hvalue with rfl | rfl
  · simp [Tree.numbers, Tree.propertyNumbers, Tree.ofString] at hx
  · exact hx

/-- A text with three kinds of line ends and a line feed in a string, alone and behind itself. -/
theorem convertLines_lineLocal_mixed :
    Text.LaidOut mixedLines mixedText ∧
      (∀ line ∈ mixedLines, Text.isBlankText line = false → ∃ value, Json.parse? line = some value) ∧
      (∀ values, readJsonLines mixedText = .ok (stream values) →
        ∀ value ∈ values, Json.FloatsReadBack (value.prune keepsA)) ∧
      (∃ converted, List.Forall₂ (ConvertsTo keepsA) (mixedLines.filter (!Text.isBlankText ·)) converted) ∧
      convertLines keepsA .default mixedText = .ok (some (writeLines leftOfMixed)) ∧
      convertLines keepsA .default (mixedText ++ '\n' :: mixedText) =
        .ok (some (writeLines leftOfMixed ++ writeLines leftOfMixed)) ∧
      convertLines keepsA .default (writeLines leftOfMixed) =
        .ok (some (writeLines leftOfMixed)) := by
  obtain ⟨hlines, happend, hself⟩ := convertLines_lineLocal keepsA .default
  have hjson := exists_readLines_iff.1 ⟨_, hold_iff.1 hold_mixedLines⟩
  have hfloats : ∀ values, readJsonLines mixedText = .ok (stream values) →
      ∀ value ∈ values, Json.FloatsReadBack (value.prune keepsA) := by
    intro values hread value hvalue
    have hmixed := (readJsonLines_eq_ok_iff laidOut_mixedText).2
      ⟨_, List.cons_ne_nil _ _, hold_iff.1 hold_mixedLines, rfl⟩
    rw [hmixed] at hread
    obtain rfl := stream.inj (Except.ok.inj hread)
    have hleft := List.mem_map_of_mem (f := Tree.prune keepsA) hvalue
    rw [map_prune_mixed] at hleft
    exact floatsReadBack_leftOfMixed _ hleft
  have hconverted : convertLines keepsA .default mixedText =
      .ok (some (writeLines leftOfMixed)) := by
    rw [convertLines_of_laidOut laidOut_mixedText hold_mixedLines, if_neg (List.cons_ne_nil _ _),
      map_prune_mixed]
  obtain ⟨converted, hforall, -, -⟩ := hlines _ _ laidOut_mixedText hjson
  exact ⟨laidOut_mixedText, hjson, hfloats, ⟨converted, hforall⟩, hconverted,
    happend _ _ _ _ hconverted hconverted, hself _ _ hconverted hfloats⟩

end PartialResponse.Document
