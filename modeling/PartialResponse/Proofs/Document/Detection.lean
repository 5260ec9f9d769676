import PartialResponse.Document.Input
import PartialResponse.Proofs.Document.JsonRoundTrip
import PartialResponse.Proofs.Json.Lines
import PartialResponse.Proofs.Text.Utf8

/-!
# PartialResponse.Proofs.Document.Detection — written JSON is recognized

The bytes of written JSON are read back although nothing tells their format. They do
not start as compressed data does, since no text does. One value is JSON. More than
one are not, as the first one leaves tokens behind it; they are JSON Lines, which is
tried next, so YAML never comes into question.
-/

namespace PartialResponse

open Text.Utf8

/-! ## Bytes -/

/-- The second byte of compressed data starts no character, so no text has it behind the first one. -/
theorem Gzip.decode?_of_isMarked {file : List UInt8} (h : isMarked file = true) :
    decode? file = none := by
  rw [isMarked, List.isPrefixOf_iff_prefix] at h
  obtain ⟨rest, rfl⟩ := h
  have hmalformed : parts none (mark ++ rest) = some '\x1f' :: none :: parts none rest := rfl
  rw [decode?, hmalformed]
  rfl

/-- No text is taken for compressed data. -/
@[simp]
theorem Gzip.isMarked_encode (t : List Char) : isMarked (encode t) = false := by
  by_contra hmarked
  have hnone := decode?_of_isMarked (Bool.not_eq_false _ ▸ hmarked)
  rw [decode?_encode] at hnone
  cases hnone

/-- What can be decompressed starts as a compressed file does. -/
theorem Gzip.isMarked_of_decompress? {file bytes : List UInt8} (h : decompress? file = some bytes) :
    isMarked file = true := by
  cases hskipped : skipHeader? file with
  | none => simp [decompress?, hskipped] at h
  | some data =>
    unfold skipHeader? at hskipped
    split at hskipped
    · rfl
    · cases hskipped

/-- Input that is a text is decoded as it is. -/
@[simp]
theorem Document.decodeInput_encode (t : List Char) : decodeInput (encode t) = .ok t := by
  rw [decodeInput, if_neg (by simp [Gzip.isMarked_encode]), decode?_encode]

/-! ## Blank texts -/

namespace Json

/-- No token starts with a blank character, be it white space to JSON or not. -/
theorem Token.read_blank {c : Char} {t : List Char} (h : Text.isBlank c = true) : read (c :: t) = none := by
  have hnumber : readNumber (c :: t) = none := by
    by_contra hread
    obtain ⟨⟨n, rest⟩, hread⟩ := Option.ne_none_iff_exists'.1 hread
    -- a number starts with a digit or a sign
    obtain ⟨_, _, heq, hc⟩ := exists_head_of_readNumber hread
    obtain ⟨rfl, rfl⟩ := List.cons.inj heq
    rcases hc with hc | rfl
    · have hn := Text.isDigit_iff.1 hc
      simp only [Text.isBlank, Bool.or_eq_true, Bool.and_eq_true, decide_eq_true_eq, beq_iff_eq] at h
      omega
    · simp [Text.isBlank] at h
  unfold read
  split
  case h_11 => rw [hnumber, Option.map_none]
  all_goals
    next heq =>
    cases heq
    simp [Text.isBlank] at h

/-- A blank text is no JSON text. -/
theorem isBlankText_of_parse? {t : List Char} {value : Tree} (h : parse? t = some value) :
    Text.isBlankText t = false := by
  by_contra hblank
  rw [Bool.not_eq_false, Text.isBlankText, List.all_eq_true] at hblank
  have htokens : Token.ofText? t = some [] ∨ Token.ofText? t = none := by
    rw [Token.ofText?_eq]
    cases hstart : t.dropWhile isSpace with
    | nil => simp
    | cons c more =>
      -- what is left may be blank and yet no white space to JSON
      have hc : Text.isBlank c = true := by
        apply hblank
        apply (List.dropWhile_suffix isSpace).subset
        rw [hstart]
        exact List.mem_cons_self
      simp [Token.read_blank hc]
  rw [parse?] at h
  rcases htokens with htokens | htokens <;> rw [htokens] at h <;> cases h

end Json

namespace Document

variable {value : Tree} {values : List Tree}

/-! ## Values on lines -/

/-- Each value is read from its line. -/
theorem readLines_write (h : ∀ value ∈ values, Json.Restorable value) (number : Nat) :
    readLines number (values.map (Json.write .compact 0)) = .ok values := by
  induction values generalizing number with
  | nil => rfl
  | cons value more ih =>
    obtain ⟨hvalue, hmore⟩ := List.forall_mem_cons.1 h
    have hparse := Json.parse?_write hvalue .compact
    rw [List.map_cons, readLines, Json.isBlankText_of_parse? hparse, hparse, ih hmore]
    rfl

/-- Values that are written on lines are read from the lines. -/
theorem readJsonLines_writeLines (h : ∀ value ∈ values, Json.Restorable value) (hne : values ≠ []) :
    readJsonLines (writeLines values) = .ok (stream values) := by
  rw [readJsonLines, lines_writeLines, readLines_write h]
  cases values with
  | nil => exact absurd rfl hne
  | cons value more => rfl

/-- Values on lines have the tokens of the values, one after the other. -/
theorem ofText?_writeLines (h : ∀ value ∈ values, Json.Restorable value) :
    Json.Token.ofText? (writeLines values) = some (values.flatMap Json.tokensOf) := by
  induction values with
  | nil => exact Json.Token.ofText?_nil
  | cons value more ih =>
    obtain ⟨hvalue, hmore⟩ := List.forall_mem_cons.1 h
    have hlines : writeLines (value :: more) = Json.write .compact 0 value ++ '\n' :: writeLines more := by
      simp [writeLines]
    have htokens := Json.lexes hvalue.floatsReadBack .compact 0 ('\n' :: writeLines more)
      -- a line feed parts any token from the next
      (Json.apart_cons rfl)
    rw [hlines, htokens, Json.Token.ofText?_space rfl, ih hmore]
    rfl

/-- More than one value is not one. -/
theorem readJson_writeLines (h : ∀ value ∈ values, Json.Restorable value) (hmany : 2 ≤ values.length) :
    readJson (writeLines values) = .error .json := by
  match values, hmany with
  | value :: next :: more, _ =>
    have hvalue := (List.forall_mem_cons.1 h).1
    have hbehind : (next :: more).flatMap Json.tokensOf ≠ [] := by
      simp [Json.tokensOf_ne_nil]
    rw [readJson, Json.parse?, ofText?_writeLines h, Option.bind_some, List.flatMap_cons,
      Json.ofTokens?_append hvalue hbehind]

/-! ## Recognition -/

/-- JSON comes first among the formats that are tried. -/
theorem readInput_of_readJson {t : List Char} {d : Document} (h : readJson t = .ok d) :
    readInput (encode t) = .ok d := by
  simp [readInput, decodeInput_encode, readAny?, h, Except.toOption]

/-- JSON Lines come next. -/
theorem readInput_of_readJsonLines {t : List Char} {d : Document} {e : ReadError}
    (hjson : readJson t = .error e) (h : readJsonLines t = .ok d) :
    readInput (encode t) = .ok d := by
  simp [readInput, decodeInput_encode, readAny?, hjson, h, Except.toOption]

/-- One value is written with a line feed behind it, in whatever layout. -/
theorem exists_layout_of_write? {c : Config} {d : Document} {format : Format} (hformat : format ≠ .yaml)
    (hvalues : d.values = [value]) {t : List Char} (h : d.write? format c = some t) :
    ∃ layout, t = Json.write layout 0 value ++ ['\n'] := by
  -- a line of JSON Lines is the compact text with its line feed
  have hline : writeLines [value] = Json.write .compact 0 value ++ ['\n'] := by simp [writeLines]
  cases d with
  | single root =>
    obtain rfl : root = value := by simpa [values] using hvalues
    cases format with
    | json =>
      obtain ⟨layout, -, rfl⟩ := Option.map_eq_some_iff.1 h
      exact ⟨layout, rfl⟩
    | jsonLines =>
      obtain rfl := Option.some.inj h
      exact ⟨.compact, hline⟩
    | yaml => exact absurd rfl hformat
  | stream roots =>
    obtain rfl : roots = [value] := hvalues
    rw [write?_stream hformat] at h
    obtain rfl := Option.some.inj h
    exact ⟨.compact, hline⟩

/-- **Written JSON is recognized.** A document has a text as JSON or JSON Lines unless it is a single
value to be laid out as JSON with an indentation that is too long for a text. The bytes of the text are
read without being told their format. One value comes back as a single value, more than one as the
stream that they were. The bytes are not taken for compressed data, and those of more than one value
are not JSON but JSON Lines. -/
theorem readInput_encode_write (c : Config) {d : Document} {format : Format} (hformat : format ≠ .yaml)
    (h : ∀ value ∈ d.values, Json.Restorable value) :
    (d.write? format c = none ↔
      (∃ value, d = single value) ∧ format = .json ∧ c.compact = false ∧
        Json.maxIndent < c.indentSize) ∧
    ∀ t, d.write? format c = some t →
      Gzip.isMarked (encode t) = false ∧
      (∀ value, d = single value ∨ d = stream [value] → readInput (encode t) = .ok (single value)) ∧
      ∀ values, d = stream values → 2 ≤ values.length →
        readJson t = .error .json ∧ readJsonLines t = .ok (stream values) ∧
          readInput (encode t) = .ok (stream values) := by
  refine ⟨by rw [write?_eq_none_iff, Config.layout?_eq_none_iff], fun t ht => ?_⟩
  -- one value is read as JSON, more than one are refused by JSON and read as lines
  refine ⟨Gzip.isMarked_encode _, ?_, ?_⟩
  · intro value hone
    have hvalues : d.values = [value] := by
      rcases hone with rfl | rfl <;> rfl
    obtain ⟨layout, rfl⟩ := exists_layout_of_write? hformat hvalues ht
    rw [hvalues, List.forall_mem_singleton] at h
    exact readInput_of_readJson (readJson_write h layout)
  · rintro values rfl hmany
    have hne : values ≠ [] := by
      rintro rfl
      simp at hmany
    have hjson := readJson_writeLines h hmany
    have hlines := readJsonLines_writeLines h hne
    rw [write?_stream hformat] at ht
    obtain rfl := Option.some.inj ht
    exact ⟨hjson, hlines, readInput_of_readJsonLines hjson hlines⟩

/-- Roots of all kinds, one of which is a text that looks like lines of JSON. -/
def roots : Document :=
  .stream [.null, .ofString "1\n[2]\n", extremes, .scalar (.number (.float tenth)), .object []]

theorem readInput_encode_write_roots :
    (Format.json ≠ .yaml ∧ ∀ value ∈ roots.values, Json.Restorable value) ∧
      ∃ t, roots.write? .json Config.default = some t ∧ readInput (encode t) = .ok roots := by
  have hroots : ∀ value ∈ roots.values, Json.Restorable value := by
    have htenth : Json.FloatsReadBack (.scalar (.number (.float tenth))) := by
      intro x hx
      obtain rfl : x = tenth := by simpa [Tree.numbers] using hx
      decide +kernel
    have hnone : ∀ {value : Tree}, value.numbers = [] → Json.FloatsReadBack value := by
      intro value hempty x hx
      simp [hempty] at hx
    simp only [roots, values, List.forall_mem_cons]
    exact ⟨⟨trivial, by decide, hnone rfl⟩, ⟨trivial, by decide, hnone rfl⟩, restorable_extremes,
      ⟨trivial, by decide, htenth⟩, ⟨⟨by simp [Properties.names], trivial⟩, by decide, hnone rfl⟩, by simp⟩
  have hformat : Format.json ≠ .yaml := by decide
  obtain ⟨-, hread⟩ := readInput_encode_write Config.default hformat hroots
  have hwrite := write?_stream (c := Config.default) hformat roots.values
  exact ⟨⟨hformat, hroots⟩, _, hwrite, ((hread _ hwrite).2.2 _ rfl (by decide)).2.2⟩

/-- Not every configuration has a text for every document, so the condition on the indentation cannot be
left out. -/
theorem not_readInput_encode_write_tooWide :
    (single .null).write? .json tooWide = none ∧
      ¬ ∀ (c : Config) (d : Document) (format : Format), format ≠ .yaml →
        (∀ value ∈ d.values, Json.Restorable value) →
        ∃ t, d.write? format c = some t ∧
          ∀ value, d = single value ∨ d = stream [value] → readInput (encode t) = .ok (single value) := by
  have hnone : (single .null).write? .json tooWide = none := by
    rw [write?_single_json, layout?_tooWide, Option.map_none]
  refine ⟨hnone, fun hall => ?_⟩
  have hnull : ∀ value ∈ (single .null).values, Json.Restorable value :=
    List.forall_mem_singleton.2 restorable_null
  obtain ⟨t, hsome, -⟩ := hall tooWide (single .null) .json (by decide) hnull
  rw [hnone] at hsome
  contradiction

end Document

end PartialResponse
