import PartialResponse.Proofs.Text.Digits
import PartialResponse.Proofs.Yaml.Plain

/-!
# PartialResponse.Proofs.Yaml.Quoted — quoted scalars read back

Between double quotes a text is a row of characters and escape sequences on one
line. Between single quotes only quotes are doubled; the line breaks that a text may
hold there are those that count as themselves, and the indentation behind them is
not read.
-/

namespace PartialResponse.Yaml

variable {c : Cursor} {rounds : Nat} {x : Char} {p done t rest : List Char} {single : Bool}

/-! ## One character -/

/-- A blank is kept until it is known what follows. -/
theorem readQuoted_blank {pending : Pending} (h : c.rest = x :: rest) (hx : isBlank x = true) :
    readQuoted single (rounds + 1) c pending done =
      readQuoted single rounds (c.skip 1) (pending.addBlank x) done := by
  rw [readQuoted]
  split
  · next hrest => simp [h] at hrest
  · next hrest =>
    rw [h, List.cons.injEq] at hrest
    simp [← hrest.1, hx]

/-- A line break is counted until it is known what follows. -/
theorem readQuoted_break {pending : Pending} (h : c.rest = x :: rest) (hx : isBreak x = true)
    (hblank : isBlank x = false) :
    readQuoted single (rounds + 1) c pending done =
      readQuoted single rounds c.skipBreak (pending.addBreak c.breakText) done := by
  rw [readQuoted]
  split
  · next hrest => simp [h] at hrest
  · next hrest =>
    rw [h, List.cons.injEq] at hrest
    simp [← hrest.1, hx, hblank]

/-- Any other character is taken in, behind what has been kept. -/
theorem readQuoted_char {pending : Pending} (h : c.rest = x :: rest) (hblank : isBlank x = false)
    (hbreak : isBreak x = false) (hmarker : c.atDocumentMarker = false)
    (hquote : x ≠ (if single then '\'' else '"')) (hescape : x = '\\' → single = true) :
    readQuoted single (rounds + 1) c pending done =
      readQuoted single rounds (c.skip 1) (.blanks []) (x :: (pending.folded ++ done)) := by
  rw [readQuoted]
  split
  · next hrest => simp [h] at hrest
  · next hrest =>
    rw [h, List.cons.injEq] at hrest
    obtain ⟨rfl, rfl⟩ := hrest
    -- the only escape between single quotes is the doubled quote
    have hplain : (decide (x = '\\') && !single) = false := by
      by_cases hx : x = '\\'
      · simp [hescape hx]
      · simp [hx]
    simp [hblank, hbreak, hmarker, hquote, hplain, Pending.none]

/-- The closing quote ends the text. -/
theorem readQuoted_close {pending : Pending} {quote : Char}
    (hquote : quote = if single then '\'' else '"') (h : c.rest = quote :: rest)
    (hmarker : c.atDocumentMarker = false) (hdouble : single = true → rest.head? ≠ some '\'') :
    readQuoted single (rounds + 1) c pending done =
      .ok ((pending.folded ++ done).reverse, c.skip 1) := by
  have hblank : isBlank quote = false := by cases single <;> subst hquote <;> rfl
  have hbreak : isBreak quote = false := by cases single <;> subst hquote <;> rfl
  rw [readQuoted]
  split
  · next hrest => simp [h] at hrest
  · next x rest' hrest =>
    rw [h, List.cons.injEq] at hrest
    obtain ⟨rfl, rfl⟩ := hrest
    have hend : (single && rest.head? == some '\'') = false := by
      cases single with
      | false => rfl
      | true => simpa using hdouble rfl
    simp [hblank, hbreak, hmarker, ← hquote, hend]

/-! ## Escape sequences -/

/-- A letter that is written for a character is read as the character. -/
theorem escapeOf?_of_escapeLetter? {letter : Char} (h : escapeLetter? x = some letter) :
    escapeOf? letter = some (.character x) := by
  unfold escapeLetter? at h
  split at h
  all_goals first | cases h; rfl | simp at h

theorem ofNat_toNat (c : Char) : Char.ofNat c.toNat = c := by
  simp

/-- A character by its number. -/
theorem readEscape_code {mark : Char} {width : Nat} (hmark : escapeOf? mark = some (.code width))
    (hfits : x.toNat < 16 ^ width)
    (h : c.rest = mark :: (Text.hexText Text.upperHexDigit width x.toNat ++ rest)) :
    readEscape c = .ok (x, c.skip (width + 1)) := by
  have hlength := Text.length_hexText Text.upperHexDigit width x.toNat
  have hdigits : (c.rest.drop 1).take width = Text.hexText Text.upperHexDigit width x.toNat := by
    rw [h, List.drop_one, List.tail_cons, List.take_left' hlength]
  have hvalid := Text.toNat_valid x
  have hmatch : c.rest.head?.bind escapeOf? = some (.code width) := by simp [h, hmark]
  simp only [readEscape, hmatch, hdigits, Text.hexNumber?_hexText Text.hexValue?_upperHexDigit, Nat.mod_eq_of_lt hfits, hlength,
    true_and, if_pos hvalid, ofNat_toNat]

/-- A character by its letter. -/
theorem readEscape_letter {letter : Char} (hletter : escapeLetter? x = some letter)
    (h : c.rest = letter :: rest) : readEscape c = .ok (x, c.skip 1) := by
  have hmatch : c.rest.head?.bind escapeOf? = some (.character x) := by
    simp [h, escapeOf?_of_escapeLetter? hletter]
  simp only [readEscape, hmatch]

/-- A backslash and what it starts. -/
theorem readQuoted_escape {pending : Pending} {mark : Char} {c' : Cursor}
    (h : c.rest = '\\' :: mark :: rest) (hmark : isBreak mark = false)
    (hmarker : c.atDocumentMarker = false) (hread : readEscape (c.skip 1) = .ok (x, c')) :
    readQuoted false (rounds + 1) c pending done =
      readQuoted false rounds c' (.blanks []) (x :: (pending.folded ++ done)) := by
  have hrest' : (c.skip 1).rest = mark :: rest := Cursor.rest_skip_one h
  rw [readQuoted]
  split
  · next hrest => simp [h] at hrest
  · next hrest =>
    rw [h, List.cons.injEq] at hrest
    obtain ⟨rfl, rfl⟩ := hrest
    have hgoes : (c.skip 1).nextIs isBreak = false := by simp [Cursor.nextIs, hrest', hmark]
    simp [isBlank, show isBreak '\\' = false from rfl, hmarker, hgoes, hread, Pending.none]

/-! ## Double quotes -/

/-- A line break that can be printed is still written by its letter. -/
theorem isBreak_of_isPrintable (h : isPrintable x = true) (hletter : escapeLetter? x = none) :
    isBreak x = false := by
  by_contra hbreak
  simp only [Bool.not_eq_false, isBreak, Bool.or_eq_true, beq_iff_eq] at hbreak
  -- each of the five line breaks has a letter
  rcases hbreak with (((rfl | rfl) | rfl) | rfl) | rfl <;> simp [escapeLetter?] at hletter

theorem writeEscaped_ne_nil (x : Char) : writeEscaped x ≠ [] := by
  unfold writeEscaped
  split
  · simp
  · dsimp only
    repeat' split
    all_goals simp

/-- A character between double quotes reads back, whatever white space stands before it. -/
theorem readQuoted_writeEscaped (hrest : c.rest = writeEscaped x ++ rest)
    (hmarker : c.atDocumentMarker = false) :
    ∃ p' done', p' ++ done' = x :: (p ++ done) ∧
      readQuoted false (rounds + 1) c (.blanks p) done =
        readQuoted false rounds (c.skip (writeEscaped x).length) (.blanks p') done' := by
  cases hletter : escapeLetter? x with
  | some letter =>
    have htext : writeEscaped x = ['\\', letter] := by simp [writeEscaped, hletter]
    -- a backslash in front of a line break would be no escape
    have hbreak : isBreak letter = false := by
      unfold escapeLetter? at hletter
      split at hletter
      all_goals first | cases hletter; rfl | simp at hletter
    rw [htext] at hrest
    have hescape := readEscape_letter hletter (Cursor.rest_skip_one hrest)
    refine ⟨[], x :: (p ++ done), rfl, ?_⟩
    rw [readQuoted_escape hrest hbreak hmarker hescape, Cursor.skip_skip, htext]
    rfl
  | none =>
    by_cases hprint : isPrintable x = true
    · have htext : writeEscaped x = [x] := by simp [writeEscaped, hletter, hprint]
      rw [htext] at hrest ⊢
      -- a blank stays pending, since it may turn out to end the line
      cases hblank : isBlank x with
      | true => exact ⟨x :: p, done, rfl, readQuoted_blank hrest hblank⟩
      | false =>
        have hquote : x ≠ '"' := by rintro rfl; simp [escapeLetter?] at hletter
        have hescape : x ≠ '\\' := by rintro rfl; simp [escapeLetter?] at hletter
        exact ⟨[], x :: (p ++ done), rfl, readQuoted_char hrest hblank
          (isBreak_of_isPrintable hprint hletter) hmarker hquote fun h => absurd h hescape⟩
    · -- a character by its number, in one of three widths
      obtain ⟨mark, width, htext, hmark, hbreak, hfits⟩ : ∃ mark width,
          writeEscaped x = '\\' :: mark :: Text.hexText Text.upperHexDigit width x.toNat ∧
            escapeOf? mark = some (.code width) ∧ isBreak mark = false ∧ x.toNat < 16 ^ width := by
        have hvalid := Text.toNat_valid x
        by_cases hbyte : x.toNat ≤ 0xFF
        · exact ⟨'x', 2, by simp [writeEscaped, hletter, hprint, hbyte], rfl, rfl, by omega⟩
        by_cases hshort : x.toNat ≤ 0xFFFF
        · exact ⟨'u', 4, by simp [writeEscaped, hletter, hprint, hbyte, hshort], rfl, rfl, by omega⟩
        · exact ⟨'U', 8, by simp [writeEscaped, hletter, hprint, hbyte, hshort], rfl, rfl, by omega⟩
      rw [htext, List.cons_append, List.cons_append] at hrest
      have hescape := readEscape_code hmark hfits (Cursor.rest_skip_one hrest)
      refine ⟨[], x :: (p ++ done), rfl, ?_⟩
      have hlength : (writeEscaped x).length = 1 + (width + 1) := by
        rw [htext, List.length_cons, List.length_cons, Text.length_hexText]
        omega
      rw [readQuoted_escape hrest hbreak hmarker hescape, Cursor.skip_skip, hlength]
      rfl

/-- A text between double quotes reads back, from behind the opening quote to behind the closing
one. -/
theorem readQuoted_double (hrest : c.rest = t.flatMap writeEscaped ++ '"' :: rest)
    (hmarker : c.column ≠ 0) (hrounds : c.left < rounds) :
    readQuoted false rounds c (.blanks p) done =
      .ok ((p ++ done).reverse ++ t, c.skip ((t.flatMap writeEscaped).length + 1)) := by
  -- a round for each character that is written; what has been read and what is kept grow
  induction t generalizing c p done rounds with
  | nil =>
    obtain ⟨rounds, rfl⟩ := Nat.exists_eq_succ_of_ne_zero (Nat.ne_zero_of_lt hrounds)
    rw [Nat.succ_eq_add_one, readQuoted_close rfl hrest (Cursor.atDocumentMarker_of_column hmarker)
      (by simp)]
    simp [Pending.folded]
  | cons x t ih =>
    obtain ⟨rounds, rfl⟩ := Nat.exists_eq_succ_of_ne_zero (Nat.ne_zero_of_lt hrounds)
    rw [List.flatMap_cons, List.append_assoc] at hrest
    have hrest' := Cursor.rest_skip hrest
    have hcolumn : (c.skip (writeEscaped x).length).column ≠ 0 := by
      rw [Cursor.column_skip hrest]
      omega
    have hless : (c.skip (writeEscaped x).length).left < c.left :=
      Cursor.left_lt_of_rest (by rw [hrest, hrest']) (writeEscaped_ne_nil x)
    obtain ⟨p', done', happend, hread⟩ := @readQuoted_writeEscaped _ rounds _ p done _ hrest
      (Cursor.atDocumentMarker_of_column hmarker)
    rw [Nat.succ_eq_add_one, hread, ih hrest' hcolumn (by omega), happend, Cursor.skip_skip]
    simp [Nat.add_assoc]

/-! ## Single quotes -/

/-- Spaces behind a line break are not kept. -/
theorem readQuoted_spaces {n : Nat} {first more : List Char}
    (h : c.rest = List.replicate n ' ' ++ rest) (hrounds : n ≤ rounds) :
    readQuoted single rounds c (.breaks first more) done =
      readQuoted single (rounds - n) (c.skip n) (.breaks first more) done := by
  induction n generalizing c rounds with
  | zero => rw [Cursor.skip_zero, Nat.sub_zero]
  | succ n ih =>
    obtain ⟨rounds, rfl⟩ : ∃ r, rounds = r + 1 := ⟨rounds - 1, by omega⟩
    rw [List.replicate_succ, List.cons_append] at h
    have hsame : (Pending.breaks first more).addBlank ' ' = .breaks first more := rfl
    rw [readQuoted_blank h rfl, hsame, ih (Cursor.rest_skip_one h) (by omega), Cursor.skip_skip,
      Nat.add_comm 1 n, Nat.add_sub_add_right]

/-- A character between single quotes. -/
def doubled (x : Char) : List Char :=
  if x = '\'' then ['\'', '\''] else [x]

theorem doubled_ne_nil (x : Char) : doubled x ≠ [] := by
  unfold doubled
  split <;> simp

/-- A character between single quotes reads back, be it a quote or not. -/
theorem readQuoted_doubled {pending : Pending} (hrest : c.rest = doubled x ++ rest)
    (hblank : isBlank x = false) (hbreak : isBreak x = false) (hcolumn : c.column ≠ 0) :
    readQuoted true (rounds + 1) c pending done =
      readQuoted true rounds (c.skip (doubled x).length) (.blanks [])
        (x :: (pending.folded ++ done)) := by
  have hmarker := Cursor.atDocumentMarker_of_column hcolumn
  by_cases hx : x = '\''
  · subst hx
    have htext : doubled '\'' = ['\'', '\''] := rfl
    rw [htext] at hrest
    rw [readQuoted]
    split
    · next h => simp [hrest] at h
    · next h =>
      rw [hrest, List.cons_append, List.cons.injEq] at h
      simp [← h.1, ← h.2, hblank, hbreak, hmarker, htext, Pending.none]
  · have htext : doubled x = [x] := by simp [doubled, hx]
    rw [htext] at hrest ⊢
    exact readQuoted_char hrest hblank hbreak hmarker hx fun _ => rfl

/-- Whether a line has just been started behind a text. -/
def endsFresh (fresh : Bool) (t : List Char) : Bool :=
  (t.getLast?.map isBreak).getD fresh

/-- Only the last character counts. -/
theorem endsFresh_cons (fresh : Bool) (x : Char) (t : List Char) :
    endsFresh fresh (x :: t) = endsFresh (isBreak x) t := by
  cases t with
  | nil => rfl
  | cons y t =>
    obtain ⟨z, hz⟩ : ∃ z, (y :: t).getLast? = some z :=
      ⟨_, List.getLast?_eq_some_getLast (List.cons_ne_nil y t)⟩
    simp [endsFresh, List.getLast?_cons_cons, hz]

/-- What stands behind a text between single quotes. -/
def singleEnd (indent : Nat) (fresh : Bool) : List Char :=
  (if fresh then List.replicate indent ' ' else []) ++ ['\'']

/-- Whether white space may come in front of a text between single quotes: only line breaks that count
as themselves, with no blanks next to them. -/
structure Pending.Before (pending : Pending) (t : List Char) : Prop where
  first : ∀ first more, pending = .breaks first more → first ≠ ['\n']
  noBlank : pending.hasBreak = true → t.head? ≠ some ' '
  noBreak : pending.isSome = true → pending.hasBreak = false → ∀ x ∈ t.head?, isBreak x = false

/-- A text that has a place between single quotes. -/
structure SingleText (t : List Char) : Prop where
  printable : ∀ x ∈ t, isPrintable x = true
  noNewline : '\n' ∉ t
  blankBreak : hasNeighbours (· == ' ') isBreak t = false
  breakBlank : hasNeighbours isBreak (· == ' ') t = false

/-- Without neighbours of these kinds, neither are the first two characters such ones. -/
theorem hasNeighbours_cons {first second : Char → Bool} (h : hasNeighbours first second (x :: t) = false) :
    hasNeighbours first second t = false ∧ (first x = true → ∀ y ∈ t.head?, second y = false) := by
  cases t with
  | nil => exact ⟨rfl, by simp⟩
  | cons y t =>
    simp only [hasNeighbours, Bool.or_eq_false_iff, Bool.and_eq_false_iff] at h
    refine ⟨h.2, ?_⟩
    intro hx z hz
    obtain rfl : y = z := by simpa using hz
    exact h.1.resolve_left (by simp [hx])

/-- The rest of a text between single quotes. -/
theorem SingleText.tail (h : SingleText (x :: t)) : SingleText t :=
  ⟨fun y hy => h.printable y (List.mem_cons_of_mem _ hy),
    fun hy => h.noNewline (List.mem_cons_of_mem _ hy), (hasNeighbours_cons h.blankBreak).1,
    (hasNeighbours_cons h.breakBlank).1⟩

/-- The line breaks that can be printed count as themselves. -/
theorem breakText_eq (h : c.rest = x :: rest) (hprint : isPrintable x = true) (hbreak : isBreak x = true) :
    c.breakText = [x] ∧ x ≠ '\r' := by
  simp only [isBreak, Bool.or_eq_true, beq_iff_eq] at hbreak
  rcases hbreak with (((rfl | rfl) | rfl) | rfl) | rfl
  · exact ⟨by simp [Cursor.breakText, h, isBreak], by decide⟩
  · exact absurd hprint (by decide)
  · exact absurd hprint (by decide)
  · exact ⟨by simp [Cursor.breakText, h], by decide⟩
  · exact ⟨by simp [Cursor.breakText, h], by decide⟩

namespace Pending

variable {pending : Pending}

/-- A line break between single quotes counts as itself. -/
theorem Before.addBreak (h : pending.Before (x :: t)) (htext : SingleText (x :: t))
    (hx : isBreak x = true) :
    (pending.addBreak [x]).Before t ∧ (pending.addBreak [x]).hasBreak = true ∧
      (pending.addBreak [x]).folded = x :: pending.folded := by
  have hnewline : x ≠ '\n' := fun heq => htext.noNewline (by simp [heq])
  have hblank : t.head? ≠ some ' ' := by
    intro hhead
    simpa using (hasNeighbours_cons htext.breakBlank).2 hx ' ' hhead
  cases pending with
  | blanks p =>
    -- blanks in front of a line break would be lost
    have hnone : p = [] := by
      by_contra hsome
      have hnot := h.noBreak (by simp [isSome, hsome]) rfl x rfl
      simp [hx] at hnot
    subst hnone
    exact ⟨⟨by simp [Pending.addBreak, hnewline], fun _ => hblank, by simp [Pending.addBreak, hasBreak]⟩,
      rfl, by simp [Pending.addBreak, folded, hnewline]⟩
  | breaks first more =>
    have hfirst := h.first first more rfl
    exact ⟨⟨by simpa [Pending.addBreak] using hfirst, fun _ => hblank, by simp [Pending.addBreak, hasBreak]⟩,
      rfl, by simp [Pending.addBreak, folded, hfirst]⟩

/-- A blank between single quotes. -/
theorem Before.addBlank {p : List Char} (htext : SingleText (' ' :: t)) :
    (Pending.blanks (' ' :: p)).Before t :=
  ⟨by simp, by simp [hasBreak], fun _ _ => (hasNeighbours_cons htext.blankBreak).2 rfl⟩

theorem before_none : (Pending.blanks []).Before t :=
  ⟨by simp, by simp [hasBreak], by simp [isSome]⟩

end Pending

/-- The indentation of a line between single quotes says nothing. -/
theorem readQuoted_lineStart {indent : Nat} {pending : Pending} (hindent : indent ≠ 0)
    (hrest : c.rest = (if pending.hasBreak then List.replicate indent ' ' else []) ++ rest)
    (hcolumn : pending.hasBreak = false → c.column ≠ 0) (hrounds : c.left < rounds) :
    ∃ c' r, readQuoted true rounds c pending done = readQuoted true r c' pending done ∧
      c'.rest = rest ∧ c'.column ≠ 0 ∧ c'.line = c.line ∧ c'.left < r := by
  cases pending with
  | blanks p => exact ⟨c, rounds, rfl, by simpa [Pending.hasBreak] using hrest, hcolumn rfl, rfl, hrounds⟩
  | breaks first more =>
    rw [Pending.hasBreak, if_pos rfl] at hrest
    have hplace := Cursor.column_skip hrest
    have hbehind := Cursor.rest_skip hrest
    have hleft := Cursor.left_skip hrest
    have hall := c.left_eq
    rw [hrest, List.length_append] at hall
    rw [List.length_replicate] at hplace hbehind hleft hall
    exact ⟨c.skip indent, rounds - indent, readQuoted_spaces hrest (by omega), hbehind, by omega, rfl,
      by omega⟩

/-- A reading between single quotes, with a text and the closing quote still to come. Blanks are kept
and line breaks counted until a character follows them, so either may be pending. -/
structure Quoting (indent : Nat) (rest : List Char) (c : Cursor) (pending : Pending)
    (t : List Char) : Prop where
  text : SingleText t
  before : pending.Before t
  rest_eq : c.rest = writeLines indent doubled pending.hasBreak t ++
    (singleEnd indent (endsFresh pending.hasBreak t) ++ rest)
  column_ne : pending.hasBreak = false → c.column ≠ 0

namespace Quoting

variable {indent : Nat} {pending : Pending}

/-- A line break is counted. -/
theorem takeBreak (h : Quoting indent rest c pending (x :: t)) (hbreak : isBreak x = true) :
    ∃ pending', readQuoted true (rounds + 1) c pending done =
        readQuoted true rounds c.skipBreak pending' done ∧
      Quoting indent rest c.skipBreak pending' t ∧ pending'.folded = x :: pending.folded ∧
      c.line ≤ c.skipBreak.line ∧ c.skipBreak.left < c.left := by
  have hrest := h.rest_eq
  obtain ⟨hbefore, hhas, hfolded⟩ := h.before.addBreak h.text hbreak
  rw [endsFresh_cons, writeLines, hbreak, if_pos rfl, List.cons_append, ← hhas] at hrest
  obtain ⟨hbreakText, hr⟩ := breakText_eq hrest (h.text.printable x (by simp)) hbreak
  obtain ⟨hrest', hline, -⟩ := Cursor.skipBreak_eq hrest hbreak hr
  have hblank : isBlank x = false := by
    by_contra hblank
    simp [not_isBreak_of_isBlank (by simpa using hblank)] at hbreak
  have hless : c.skipBreak.left < c.left :=
    Cursor.left_lt_of_rest (a := [x]) (by rw [hrest, hrest']; rfl) (by simp)
  exact ⟨_, by rw [readQuoted_break hrest hbreak hblank, hbreakText],
    ⟨h.text.tail, hbefore, hrest', by simp [hhas]⟩, hfolded, by omega, hless⟩

/-- Any other character is taken in behind what is pending, unless it is a blank, which is kept. -/
theorem takeChar (hindent : indent ≠ 0) (h : Quoting indent rest c pending (x :: t))
    (hbreak : isBreak x = false) (hrounds : c.left < rounds) :
    ∃ c' r pending' done', readQuoted true rounds c pending done = readQuoted true r c' pending' done' ∧
      Quoting indent rest c' pending' t ∧ pending'.folded ++ done' = x :: (pending.folded ++ done) ∧
      c'.line = c.line ∧ c'.left < r := by
  have hstart : c.rest = (if pending.hasBreak then List.replicate indent ' ' else []) ++
      (doubled x ++ (writeLines indent doubled false t ++
        (singleEnd indent (endsFresh false t) ++ rest))) := by
    simpa [endsFresh_cons, writeLines, hbreak] using h.rest_eq
  -- behind a break the indentation is passed over first
  obtain ⟨d, r, hsame, hdrest, hdcolumn, hdline, hr⟩ :=
    @readQuoted_lineStart _ _ done _ _ _ hindent hstart h.column_ne hrounds
  obtain ⟨r, rfl⟩ := Nat.exists_eq_succ_of_ne_zero (Nat.ne_zero_of_lt hr)
  have hrest' := Cursor.rest_skip hdrest
  have hcolumn : (d.skip (doubled x).length).column ≠ 0 := by
    rw [Cursor.column_skip hdrest]
    omega
  have hless : (d.skip (doubled x).length).left < d.left :=
    Cursor.left_lt_of_rest (by rw [hdrest, hrest']) (doubled_ne_nil x)
  rw [hsame, Nat.succ_eq_add_one]
  cases hblank : isBlank x with
  | true =>
    obtain rfl := eq_space_of_isBlank (h.text.printable x (by simp)) hblank
    cases pending with
    | breaks first more => exact absurd rfl (h.before.noBlank rfl)
    | blanks p =>
      exact ⟨_, r, .blanks (' ' :: p), done, readQuoted_blank hdrest hblank,
        ⟨h.text.tail, Pending.Before.addBlank h.text, hrest', fun _ => hcolumn⟩, rfl, hdline,
        Nat.lt_of_lt_of_le hless (Nat.le_of_lt_succ hr)⟩
  | false =>
    exact ⟨_, r, .blanks [], _, readQuoted_doubled hdrest hblank hbreak hdcolumn,
      ⟨h.text.tail, Pending.before_none, hrest', fun _ => hcolumn⟩, rfl, hdline,
      Nat.lt_of_lt_of_le hless (Nat.le_of_lt_succ hr)⟩

/-- The step lemma: one more character. -/
theorem step (hindent : indent ≠ 0) (h : Quoting indent rest c pending (x :: t))
    (hrounds : c.left < rounds) :
    ∃ c' r pending' done', readQuoted true rounds c pending done = readQuoted true r c' pending' done' ∧
      Quoting indent rest c' pending' t ∧ pending'.folded ++ done' = x :: (pending.folded ++ done) ∧
      c.line ≤ c'.line ∧ c'.left < r := by
  cases hbreak : isBreak x with
  | true =>
    obtain ⟨rounds, rfl⟩ := Nat.exists_eq_succ_of_ne_zero (Nat.ne_zero_of_lt hrounds)
    obtain ⟨pending', hread, hnext, hfolded, hline, hless⟩ := @takeBreak _ rounds _ done _ _ _ _ h hbreak
    exact ⟨_, _, pending', done, hread, hnext, by rw [hfolded, List.cons_append], hline, by omega⟩
  | false =>
    obtain ⟨c', r, pending', done', hread, hnext, hfolded, hline, hless⟩ :=
      @takeChar _ _ _ done _ _ _ _ hindent h hbreak hrounds
    exact ⟨c', r, pending', done', hread, hnext, hfolded, Nat.le_of_eq hline.symm, hless⟩

/-- The closing quote. -/
theorem finish (hindent : indent ≠ 0) (h : Quoting indent rest c pending [])
    (hquote : rest.head? ≠ some '\'') (hrounds : c.left < rounds) :
    ∃ c', readQuoted true rounds c pending done = .ok ((pending.folded ++ done).reverse, c') ∧
      c'.rest = rest ∧ c.line ≤ c'.line := by
  have hend : c.rest = (if pending.hasBreak then List.replicate indent ' ' else []) ++ '\'' :: rest := by
    rw [h.rest_eq]
    cases pending.hasBreak <;> simp [writeLines, singleEnd, endsFresh]
  obtain ⟨c', r, hsame, hrest', hcolumn', hline, hr⟩ :=
    @readQuoted_lineStart _ _ done _ _ _ hindent hend h.column_ne hrounds
  obtain ⟨r, rfl⟩ := Nat.exists_eq_succ_of_ne_zero (Nat.ne_zero_of_lt hr)
  refine ⟨c'.skip 1, ?_, Cursor.rest_skip_one hrest', Nat.le_of_eq hline.symm⟩
  rw [hsame, Nat.succ_eq_add_one, readQuoted_close rfl hrest'
    (Cursor.atDocumentMarker_of_column hcolumn') fun _ => hquote]

end Quoting

/-- A text between single quotes reads back, from behind the opening quote to behind the closing
one. By induction on the text. -/
theorem readQuoted_single {indent : Nat} {pending : Pending} (hindent : indent ≠ 0)
    (h : Quoting indent rest c pending t) (hquote : rest.head? ≠ some '\'')
    (hrounds : c.left < rounds) :
    ∃ c', readQuoted true rounds c pending done = .ok ((pending.folded ++ done).reverse ++ t, c') ∧
      c'.rest = rest ∧ c.line ≤ c'.line := by
  induction t generalizing c pending done rounds with
  | nil => simpa using @Quoting.finish _ _ done _ _ _ hindent h hquote hrounds
  | cons x t ih =>
    obtain ⟨d, r, pending', done', hread, hnext, htaken, hline, hr⟩ :=
      @Quoting.step _ _ _ done _ _ _ _ hindent h hrounds
    obtain ⟨c', hread', hrest, hline'⟩ := @ih _ r done' pending' hnext hr
    refine ⟨c', ?_, hrest, Nat.le_trans hline hline'⟩
    rw [hread, hread', htaken, List.reverse_cons, List.append_assoc, List.singleton_append]

/-- A text of one line between single quotes takes no more than its characters. -/
theorem readQuoted_single_line (hbreak : ∀ x ∈ t, isBreak x = false)
    (hblank : ∀ x ∈ t, isBlank x = true → x = ' ')
    (hrest : c.rest = t.flatMap doubled ++ '\'' :: rest) (hquote : rest.head? ≠ some '\'')
    (hcolumn : c.column ≠ 0) (hrounds : c.left < rounds) :
    readQuoted true rounds c (.blanks p) done =
      .ok ((p ++ done).reverse ++ t, c.skip ((t.flatMap doubled).length + 1)) := by
  induction t generalizing c p done rounds with
  | nil =>
    obtain ⟨rounds, rfl⟩ := Nat.exists_eq_succ_of_ne_zero (Nat.ne_zero_of_lt hrounds)
    rw [Nat.succ_eq_add_one, readQuoted_close rfl hrest (Cursor.atDocumentMarker_of_column hcolumn)
      fun _ => hquote]
    simp [Pending.folded]
  | cons x t ih =>
    obtain ⟨rounds, rfl⟩ := Nat.exists_eq_succ_of_ne_zero (Nat.ne_zero_of_lt hrounds)
    rw [List.flatMap_cons, List.append_assoc] at hrest
    have hrest' := Cursor.rest_skip hrest
    have hcolumn' : (c.skip (doubled x).length).column ≠ 0 := by
      rw [Cursor.column_skip hrest]
      omega
    have hless : (c.skip (doubled x).length).left < c.left :=
      Cursor.left_lt_of_rest (by rw [hrest, hrest']) (doubled_ne_nil x)
    have hbreak' := List.forall_mem_cons.1 hbreak
    have hblank' := List.forall_mem_cons.1 hblank
    -- a space stays pending until the next character takes it along
    cases hx : isBlank x with
    | true =>
      obtain rfl := hblank'.1 hx
      have hone : (doubled ' ').length = 1 := rfl
      rw [hone] at hrest' hcolumn' hless
      rw [Nat.succ_eq_add_one, readQuoted_blank hrest hx, Pending.addBlank,
        ih hbreak'.2 hblank'.2 hrest' hcolumn' (by omega), Cursor.skip_skip]
      simp [hone, Nat.add_assoc]
    | false =>
      rw [Nat.succ_eq_add_one, readQuoted_doubled hrest hx hbreak'.1 hcolumn,
        ih hbreak'.2 hblank'.2 hrest' hcolumn' (by omega), Cursor.skip_skip]
      simp [Pending.folded, Nat.add_assoc]

end PartialResponse.Yaml
