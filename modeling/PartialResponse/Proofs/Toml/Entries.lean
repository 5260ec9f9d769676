import PartialResponse.Proofs.Toml.Strings
import PartialResponse.Proofs.Tree.Properties
import PartialResponse.Toml.Reader

/-!
# PartialResponse.Proofs.Toml.Entries — lines of configuration text read back

A value is read up to the end of its line, whatever comes behind it (`Writes`). So
lines that assign values to plain keys, no two of them to the same key, are read
one by one, and give the table of these keys in this order (`read?_lines`).
-/

namespace PartialResponse.Toml

/-! ## Strings -/

/-- However a string is written, it starts with a quote. -/
theorem exists_writeString (t : List Char) :
    ∃ quote more, writeString t = quote :: more ∧ (quote = '"' ∨ quote = '\'') := by
  rw [writeString]
  cases Spelling.of t with
  | basic => exact ⟨_, _, rfl, Or.inl rfl⟩
  | literal => exact ⟨_, _, rfl, Or.inr rfl⟩
  | longBasic => exact ⟨_, _, rfl, Or.inl rfl⟩
  | longLiteral => exact ⟨_, _, rfl, Or.inr rfl⟩

/-- A string is read as a value wherever a string may end. -/
theorem readValue_writeString (depth : Nat) (t : List Char) {rest : List Char}
    (hrest : EndsString rest) :
    readValue depth (writeString t ++ rest) = some (.string t, rest) := by
  have hread := readString_writeString t hrest
  obtain ⟨quote, more, hwritten, rfl | rfl⟩ := exists_writeString t
  · rw [hwritten, List.cons_append] at hread ⊢
    rw [readValue, hread]
    rfl
  · rw [hwritten, List.cons_append] at hread ⊢
    rw [readValue, hread]
    rfl

/-! ## Values -/

/-- What is written is read as the value, in front of the end of a line. -/
structure Writes (written : List Char) (value : Value) : Prop where
  reads : ∀ rest, readValue maxDepth (written ++ '\n' :: rest) = some (value, '\n' :: rest)
  tight : ∀ x ∈ written.head?, isSpace x = false
  printed : Printed written

/-- A string as the value of a line. -/
theorem writes_string (t : List Char) : Writes (writeString t) (.string t) where
  reads _ := readValue_writeString maxDepth t (by simp [EndsString])
  tight x hx := by
    obtain ⟨quote, more, hwritten, hquote⟩ := exists_writeString t
    obtain rfl : quote = x := by simpa [hwritten] using hx
    rcases hquote with rfl | rfl <;> rfl
  printed := printed_writeString t

/-- A value without quotes goes up to the line feed. -/
theorem readScalar_line {run rest : List Char} {value : Value}
    (hrun : ∀ x ∈ run, isScalarChar x = true) (hvalue : scalar? run = some value) :
    readScalar (run ++ '\n' :: rest) = some (value, '\n' :: rest) := by
  have htake : (run ++ '\n' :: rest).takeWhile isScalarChar = run := by
    rw [List.takeWhile_append_of_pos hrun]
    simp [isScalarChar]
  rw [readScalar]
  simp only [htake, List.drop_left, List.head?_cons]
  -- the run ends at the line feed, so no time of day follows a date
  have hline : (some '\n' == some ' ') = false := rfl
  simp [hline, hvalue]

/-- A truth value as the value of a line. -/
theorem writes_bool (b : Bool) : Writes (writeBool b) (.boolean b) where
  reads rest := by
    cases b
    · exact readScalar_line (by simp [isScalarChar] : ∀ x ∈ ['f', 'a', 'l', 's', 'e'], _) rfl
    · exact readScalar_line (by simp [isScalarChar] : ∀ x ∈ ['t', 'r', 'u', 'e'], _) rfl
  tight := by cases b <;> simp [writeBool, isSpace]
  printed := by cases b <;> decide

/-- Digits without underscores are one group. -/
theorem digits?_of_isDigit {t : List Char} (hne : t ≠ []) (h : ∀ x ∈ t, x.isDigit = true) :
    digits? Char.isDigit t = some t := by
  -- no digit is an underscore
  have hsingle : t.splitOn '_' = [t] := by
    apply List.splitOn_eq_singleton
    intro hmem
    have hdigit := h _ hmem
    simp [Char.isDigit] at hdigit
  rw [digits?, hsingle]
  simpa [hne] using h

/-- The digits of a number are one group without a superfluous zero in front. -/
@[simp]
theorem wholeDigits?_digitText (n : Nat) :
    wholeDigits? (Text.digitText n) = some (Text.digitText n) := by
  have hall : ∀ x ∈ Text.digitText n, x.isDigit = true := fun x => Text.isDigit_of_mem_digitText
  have hne : Text.digitText n ≠ [] := Nat.toDigits_ne_nil
  rw [wholeDigits?, digits?_of_isDigit hne hall, Option.filter_some, if_pos]
  rcases Nat.eq_zero_or_pos n with rfl | hn
  · rfl
  · simp [Text.head_digitText hn]

/-- The digits of a number are read as the number, as long as it is an integer of the format. -/
theorem scalar?_digitText {n : Nat} (h : n ≤ maxInteger) :
    scalar? (Text.digitText n) = some (.integer n) := by
  have hwhole := wholeDigits?_digitText n
  have hvalue := Text.digitValue_digitText n
  obtain ⟨d, more, hdigits, hd, hmore⟩ := Text.exists_digitText n
  rw [hdigits] at hwhole hvalue ⊢
  have hsign : splitSign (d :: more) = (false, d :: more) := by
    unfold splitSign
    split
    · next heq =>
      cases heq
      cases hd
    · next heq =>
      cases heq
      cases hd
    · rfl
  have hdecimal : decimalInteger? (d :: more) = some n := by
    rw [decimalInteger?, hsign]
    simp [hwhole, hvalue, h]
  have hinteger : integer? (d :: more) = some n := by
    unfold integer?
    -- a letter for another base is no digit
    split
    case h_4 => exact hdecimal
    all_goals
      next heq =>
      obtain ⟨-, rfl⟩ := List.cons.inj heq
      exact absurd (hmore _ List.mem_cons_self) (by decide)
  have hletter : d ≠ 't' ∧ d ≠ 'f' :=
    ⟨Text.ne_of_isDigit hd (by decide), Text.ne_of_isDigit hd (by decide)⟩
  simp [scalar?, hletter, hinteger]

/-- An integer as the value of a line. -/
theorem writes_integer {n : Nat} (h : n ≤ maxInteger) :
    Writes (Text.digitText n) (.integer n) where
  reads rest := by
    have hscalar : readScalar (Text.digitText n ++ '\n' :: rest) =
        some (.integer n, '\n' :: rest) := by
      refine readScalar_line ?_ (scalar?_digitText h)
      intro x hx
      simp [isScalarChar, Char.isAlphanum, Text.isDigit_of_mem_digitText hx]
    -- a digit opens no array and no string
    obtain ⟨d, more, hdigits, hd, -⟩ := Text.exists_digitText n
    rw [hdigits, List.cons_append] at hscalar ⊢
    rw [readValue, hscalar]
    all_goals
      intro _ heq
      obtain ⟨rfl, -⟩ := List.cons.inj heq
      cases hd
  tight x hx := by
    have hdigit := Text.isDigit_of_mem_digitText (List.mem_of_head? hx)
    simp [isSpace, Text.ne_of_isDigit hdigit (y := ' ') (by decide),
      Text.ne_of_isDigit hdigit (y := '\t') (by decide)]
  printed x hx := by
    have hdigit := Text.isDigit_iff.1 (Text.isDigit_of_mem_digitText hx)
    simp [isPlain]
    omega

/-! ## Arrays -/

/-- Space and line feeds in front of an item or a bracket are passed over. -/
theorem skipGap_spaces {spaces : List Char} (hspaces : ∀ x ∈ spaces, (isSpace x || x == '\n') = true)
    (rest : List Char) : skipGap false (spaces ++ rest) = skipGap false rest := by
  induction spaces with
  | nil => rfl
  | cons x spaces ih =>
    obtain ⟨hx, hmore⟩ := List.forall_mem_cons.1 hspaces
    rw [List.cons_append, skipGap, if_pos hx, ih hmore]

/-- A string is no gap. -/
@[simp]
theorem skipGap_writeString (t rest : List Char) :
    skipGap false (writeString t ++ rest) = writeString t ++ rest := by
  obtain ⟨quote, more, hwritten, rfl | rfl⟩ := exists_writeString t <;> simp [hwritten, skipGap, isSpace]

variable {depth bound : Nat} {spaces rest : List Char}

/-- A string as an item of an array is read, with space before it, and then what stands behind it. -/
theorem readItems_writeString (hspaces : ∀ x ∈ spaces, (isSpace x || x == '\n') = true)
    (t : List Char) (hrest : EndsString rest) :
    readItems (readValue depth) (bound + 1) (spaces ++ (writeString t ++ rest)) =
      match skipGap false rest with
      | ',' :: rest =>
        (readItems (readValue depth) bound rest).map fun (items, rest) => (.string t :: items, rest)
      | ']' :: rest => some ([.string t], rest)
      | _ => none := by
  have hitem := readValue_writeString depth t hrest
  have hgap := skipGap_writeString t rest
  obtain ⟨quote, more, hwritten, hquote⟩ := exists_writeString t
  have hbracket : quote ≠ ']' := by
    rintro rfl
    simp at hquote
  rw [hwritten, List.cons_append] at hitem hgap
  rw [readItems, skipGap_spaces hspaces, hwritten, List.cons_append, hgap]
  split
  · simp_all
  · rw [hitem]
    simp only [Option.bind_eq_bind, Option.bind_some]
    -- a comma, a bracket or something else behind the item
    rcases skipGap false rest with _ | ⟨x, behind⟩
    · rfl
    · by_cases hcomma : x = ','
      · subst hcomma
        exact Option.map_eq_bind.symm
      · by_cases hclose : x = ']'
        · simp [hclose]
        · simp [hcomma, hclose]

/-- Texts that are not empty are no longer than what they make up. -/
theorem length_le_length_flatMap {α : Type} {f : α → List Char} (h : ∀ x, 0 < (f x).length)
    (l : List α) : l.length ≤ (l.flatMap f).length := by
  induction l with
  | nil => exact Nat.le_refl _
  | cons x l ih =>
    have hx := h x
    rw [List.flatMap_cons, List.length_append, List.length_cons]
    omega

/-- The items of an array on lines of their own, up to its bracket. -/
theorem readItems_lines (texts : List (List Char)) {bound : Nat} (hbound : texts.length < bound) :
    readItems (readValue depth) bound ('\n' :: (texts.flatMap (fun t =>
        ' ' :: ' ' :: ' ' :: ' ' :: writeString t ++ [',', '\n']) ++ ']' :: rest)) =
      some (texts.map .string, rest) := by
  induction texts generalizing bound with
  | nil =>
    obtain ⟨bound, rfl⟩ := Nat.exists_eq_succ_of_ne_zero (Nat.ne_of_gt hbound)
    rw [readItems]
    simp [skipGap, isSpace]
  | cons t texts ih =>
    obtain ⟨bound, rfl⟩ := Nat.exists_eq_succ_of_ne_zero (Nat.ne_of_gt (Nat.zero_lt_of_lt hbound))
    have hmore := ih (Nat.lt_of_succ_lt_succ hbound)
    generalize hlines : texts.flatMap (fun t =>
      ' ' :: ' ' :: ' ' :: ' ' :: writeString t ++ [',', '\n']) ++ ']' :: rest = lines at hmore
    have htext : '\n' :: ((t :: texts).flatMap (fun t =>
          ' ' :: ' ' :: ' ' :: ' ' :: writeString t ++ [',', '\n']) ++ ']' :: rest) =
        ['\n', ' ', ' ', ' ', ' '] ++ (writeString t ++ ',' :: '\n' :: lines) := by
      simp [← hlines]
    -- a comma stands behind the last item too
    have hgap : skipGap false (',' :: '\n' :: lines) = ',' :: '\n' :: lines := by
      simp [skipGap, isSpace]
    rw [htext, readItems_writeString (by simp [isSpace]) t (by simp [EndsString]), hgap]
    simp [hmore]

/-- Strings as the value of a line: none, one behind the bracket, or several on lines of their own.
-/
theorem writes_strings (texts : List (List Char)) :
    Writes (writeStrings texts) (.array (texts.map .string)) where
  reads rest := by
    match texts with
    | [] => rfl
    | [t] =>
      have hgap : skipGap false (']' :: '\n' :: rest) = ']' :: '\n' :: rest := by
        simp [skipGap, isSpace]
      have hitem (bound : Nat) :
          readItems (readValue 78) (bound + 1) (writeString t ++ ']' :: '\n' :: rest) =
            some ([.string t], '\n' :: rest) := by
        have hread := @readItems_writeString 78 bound [] (']' :: '\n' :: rest) (by simp) t
          (by simp [EndsString])
        rw [hgap] at hread
        exact hread
      have htext : writeStrings [t] ++ '\n' :: rest = '[' :: (writeString t ++ ']' :: '\n' :: rest) := by
        simp [writeStrings]
      rw [htext, maxDepth, readValue, hitem]
      rfl
    | t :: second :: more =>
      have htext : writeStrings (t :: second :: more) ++ '\n' :: rest =
          '[' :: '\n' :: ((t :: second :: more).flatMap (fun t =>
            ' ' :: ' ' :: ' ' :: ' ' :: writeString t ++ [',', '\n']) ++ ']' :: '\n' :: rest) := by
        simp [writeStrings]
      -- the reader bounds the items by the length of the text
      have hlength := length_le_length_flatMap (f := fun t =>
        ' ' :: ' ' :: ' ' :: ' ' :: writeString t ++ [',', '\n']) (by simp) (t :: second :: more)
      rw [htext, maxDepth, readValue, readItems_lines]
      · rfl
      · simp only [List.length_append, List.length_cons] at hlength ⊢
        omega
  tight := by
    match texts with
    | [] => simp [writeStrings, isSpace]
    | [_] => simp [writeStrings, isSpace]
    | _ :: _ :: _ => simp [writeStrings, isSpace]
  printed := by
    have hitems : Printed (texts.flatMap fun t =>
        ' ' :: ' ' :: ' ' :: ' ' :: writeString t ++ [',', '\n']) := by
      intro x hx
      obtain ⟨t, -, hx⟩ := List.mem_flatMap.1 hx
      exact (((by decide : Printed [' ', ' ', ' ', ' ']).append (printed_writeString t)).append
        (by decide)) x hx
    match texts with
    | [] => decide
    | [t] => exact ((by decide : Printed ['[']).append (printed_writeString t)).append (by decide)
    | _ :: _ :: _ => exact ((by decide : Printed ['[', '\n']).append hitems).append (by decide)

/-! ## Lines -/

/-- Whether a key can be written without quotes. -/
def isBareKey (key : String) : Bool :=
  !key.toList.isEmpty && key.toList.all isKeyChar

/-- A line that assigns a value to a key. -/
structure Line where
  key : String
  written : List Char
  value : Value
  bare : isBareKey key = true
  writes : Writes written value

/-- The text of a line. -/
def Line.text (line : Line) : List Char :=
  writeEntry line.key line.written

/-- The entry that a line makes. -/
def Line.entry (line : Line) : String × Value :=
  (line.key, line.value)

/-- A line has its key, an equals sign between spaces, the value and a line feed. -/
theorem Line.text_append (line : Line) (rest : List Char) : line.text ++ rest =
    line.key.toList ++ ' ' :: '=' :: ' ' :: (line.written ++ '\n' :: rest) := by
  simp [Line.text, writeEntry]

/-- A key without quotes starts with a character of keys, which is none that starts anything else. -/
theorem exists_bareKey {key : String} (h : isBareKey key = true) :
    ∃ x more, key.toList = x :: more ∧ isKeyChar x = true ∧ ∀ y ∈ key.toList, isKeyChar y = true := by
  rw [isBareKey, Bool.and_eq_true, List.all_eq_true] at h
  obtain ⟨x, more, hkey⟩ := List.exists_cons_of_ne_nil (by simpa using h.1 : key.toList ≠ [])
  exact ⟨x, more, hkey, h.2 x (by simp [hkey]), h.2⟩

/-- A character of keys is none of the others. -/
theorem ne_of_isKeyChar {x y : Char} (h : isKeyChar x = true) (hy : isKeyChar y = false) : x ≠ y := by
  rintro rfl
  simp [h] at hy

/-- No key has a space. -/
theorem isSpace_of_isKeyChar {x : Char} (h : isKeyChar x = true) : isSpace x = false := by
  simp [isSpace, ne_of_isKeyChar h (y := ' ') (by decide), ne_of_isKeyChar h (y := '\t') (by decide)]

/-- A key without quotes ends in front of the space. -/
theorem readKeyPart_bare {key : String} (h : isBareKey key = true) (rest : List Char) :
    readKeyPart (key.toList ++ ' ' :: rest) = some (key, ' ' :: rest) := by
  obtain ⟨x, more, hkey, hx, hall⟩ := exists_bareKey h
  have htake : (key.toList ++ ' ' :: rest).takeWhile isKeyChar = key.toList := by
    rw [List.takeWhile_append_of_pos hall]
    simp [isKeyChar]
  have hempty : key.toList.isEmpty = false := by simp [hkey]
  unfold readKeyPart
  split
  · next heq =>
    rw [hkey] at heq
    exact absurd (List.cons.inj heq).1 (ne_of_isKeyChar hx (by decide))
  · next heq =>
    rw [hkey] at heq
    exact absurd (List.cons.inj heq).1 (ne_of_isKeyChar hx (by decide))
  · simp [htake, hempty]

/-- No space is passed over where there is none. -/
theorem skipSpace_of_head {t : List Char} (h : ∀ x ∈ t.head?, isSpace x = false) :
    skipSpace t = t := by
  cases t with
  | nil => rfl
  | cons x t => simp [skipSpace, h x rfl]

/-- A key without quotes has one part. -/
theorem readKey_bare {key : String} (h : isBareKey key = true) (rest : List Char) :
    readKey (key.toList ++ ' ' :: '=' :: rest) = some ([], key, '=' :: rest) := by
  obtain ⟨x, more, hkey, hx, -⟩ := exists_bareKey h
  have htight : skipSpace (key.toList ++ ' ' :: '=' :: rest) = key.toList ++ ' ' :: '=' :: rest := by
    apply skipSpace_of_head
    intro y hy
    obtain rfl : x = y := by simpa [hkey] using hy
    exact isSpace_of_isKeyChar hx
  have hsign : skipSpace (' ' :: '=' :: rest) = '=' :: rest := by simp [skipSpace, isSpace]
  rw [readKey, maxKeyParts, readKeyParts, htight, readKeyPart_bare h]
  simp [hsign]

/-- A line starts with a character of its key. -/
theorem Line.exists_text (line : Line) :
    ∃ x more, line.text = x :: more ∧ isKeyChar x = true := by
  obtain ⟨x, more, hkey, hx, -⟩ := exists_bareKey line.bare
  have htext := line.text_append []
  rw [List.append_nil, hkey, List.cons_append] at htext
  exact ⟨x, _, htext, hx⟩

/-- A line is read as an assignment in the table without a header. -/
theorem readStatement_line (line : Line) {entries : Entries}
    (hnew : Properties.get? entries line.key = none) (rest : List Char) :
    readStatement ⟨entries, []⟩ (line.text ++ rest) =
      some (⟨entries.set line.key line.value, []⟩, '\n' :: rest) := by
  -- what is written for a value starts with no blank
  have hvalue : skipSpace (line.written ++ '\n' :: rest) = line.written ++ '\n' :: rest := by
    apply skipSpace_of_head
    intro x hx
    cases hwritten : line.written with
    | nil =>
      obtain rfl : '\n' = x := by simpa [hwritten] using hx
      rfl
    | cons y more =>
      obtain rfl : y = x := by simpa [hwritten] using hx
      exact line.writes.tight y (by simp [hwritten])
  have hspace : skipSpace (' ' :: (line.written ++ '\n' :: rest)) = line.written ++ '\n' :: rest := by
    rw [skipSpace, List.dropWhile_cons_of_pos (by decide)]
    exact hvalue
  have hassign : readAssignment (readValue maxDepth) (line.text ++ rest) =
      some ([], line.key, line.value, '\n' :: rest) := by
    rw [line.text_append, readAssignment, readKey_bare line.bare]
    simp [hspace, line.writes.reads]
  have hentries : entries.assignUnder? [] [] line.key line.value =
      some (entries.set line.key line.value) := by
    simp [Entries.assignUnder?, Entries.assign?, Entries.edit?, hnew]
  obtain ⟨x, more, htext, hx⟩ := line.exists_text
  rw [htext, List.cons_append] at hassign ⊢
  unfold readStatement
  split
  -- the other cases start with a character that no key has
  case h_5 => simp [hassign, hentries]
  all_goals
    next heq =>
    exact absurd (List.cons.inj heq).1 (ne_of_isKeyChar hx (by decide))

/-- Lines with keys of their own are read one by one. -/
theorem readLines_lines {lines : List Line} {entries : Entries} {bound : Nat}
    (hbound : lines.length < bound) (hnew : ∀ line ∈ lines, Properties.get? entries line.key = none)
    (hdistinct : (lines.map Line.key).Nodup) :
    readLines bound ⟨entries, []⟩ (lines.flatMap Line.text) =
      some (Properties.setAll entries (lines.map Line.entry)) := by
  induction lines generalizing entries bound with
  | nil =>
    obtain ⟨bound, rfl⟩ := Nat.exists_eq_succ_of_ne_zero (Nat.ne_of_gt hbound)
    rfl
  | cons line lines ih =>
    obtain ⟨bound, rfl⟩ := Nat.exists_eq_succ_of_ne_zero (Nat.ne_of_gt (Nat.zero_lt_of_lt hbound))
    obtain ⟨hfirst, hlater⟩ := List.forall_mem_cons.1 hnew
    obtain ⟨hother, hdistinct⟩ := List.nodup_cons.1 hdistinct
    have hstatement := readStatement_line line hfirst (lines.flatMap Line.text)
    have hrest : ∀ other ∈ lines,
        Properties.get? (entries.set line.key line.value) other.key = none := by
      intro other hmem
      have hne : other.key ≠ line.key := by
        intro heq
        exact hother (heq ▸ List.mem_map_of_mem hmem)
      simp [hne, hlater other hmem]
    have hend : skipLineEnd? ('\n' :: lines.flatMap Line.text) = some (lines.flatMap Line.text) := rfl
    obtain ⟨x, more, htext, hx⟩ := line.exists_text
    have htight : skipSpace (line.text ++ lines.flatMap Line.text) =
        x :: (more ++ lines.flatMap Line.text) := by
      rw [htext, List.cons_append]
      exact skipSpace_of_head (by simpa using isSpace_of_isKeyChar hx)
    rw [htext, List.cons_append] at hstatement
    rw [readLines, List.flatMap_cons, htight]
    -- what the line has set is there, and none of the other keys is
    simp only [hstatement, hend, Option.bind_eq_bind, Option.bind_some]
    exact ih (by simpa using hbound) hrest hdistinct

/-- Printed text has no carriage return, so no line end is changed. -/
theorem joinLineEnds_of_printed {t : List Char} (h : Printed t) : joinLineEnds t = t := by
  induction t with
  | nil => rfl
  | cons x t ih =>
    obtain ⟨hx, hmore⟩ := List.forall_mem_cons.1 h
    rw [joinLineEnds, ih hmore]
    rintro rest rfl
    exact absurd hx (by decide)

/-- Characters of keys are among those that are written as they are. -/
theorem isPlain_of_isKeyChar {x : Char} (h : isKeyChar x = true) : isPlain x = true := by
  have hall : ∀ n < 0x80, isKeyChar (Char.ofNat n) = true → isPlain (Char.ofNat n) = true := by decide
  by_cases hn : x.toNat < 0x80
  · have hread := hall x.toNat hn
    rw [Char.ofNat_toNat] at hread
    exact hread h
  · simp only [isPlain, Bool.or_eq_true, Bool.and_eq_true, decide_eq_true_eq, bne_iff_ne]
    omega

/-- A line holds nothing that would not be printed. -/
theorem Line.printed (line : Line) : Printed line.text := by
  obtain ⟨-, -, -, -, hall⟩ := exists_bareKey line.bare
  have hkey : Printed line.key.toList := by
    intro x hx
    simp [isPlain_of_isKeyChar (hall x hx)]
  have htext : line.text = line.key.toList ++ [' ', '=', ' '] ++ line.written ++ ['\n'] := by
    simp [Line.text, writeEntry]
  rw [htext]
  exact ((hkey.append (by decide)).append line.writes.printed).append (by decide)

/-- **Lines read back.** Lines that assign values to keys of their own are read as the table of these
keys, in this order. -/
theorem read?_lines {lines : List Line} (hdistinct : (lines.map Line.key).Nodup) :
    read? (lines.flatMap Line.text) = some (lines.map Line.entry) := by
  have hprinted : Printed (lines.flatMap Line.text) := by
    intro x hx
    obtain ⟨line, -, hx⟩ := List.mem_flatMap.1 hx
    exact line.printed x hx
  -- the text starts with a key and not with a byte order mark
  have hmark : withoutMark (lines.flatMap Line.text) = lines.flatMap Line.text := by
    cases lines with
    | nil => rfl
    | cons line lines =>
      obtain ⟨x, more, htext, hx⟩ := line.exists_text
      rw [List.flatMap_cons, htext, List.cons_append, withoutMark]
      intro rest heq
      exact absurd (List.cons.inj heq).1 (ne_of_isKeyChar hx (by decide))
  have hpositive : ∀ line : Line, 0 < line.text.length := by
    intro line
    obtain ⟨x, more, htext, -⟩ := line.exists_text
    simp [htext]
  have hlength := length_le_length_flatMap hpositive lines
  have hnames : Properties.names (lines.map Line.entry) = lines.map Line.key := by
    simp [Properties.names, Line.entry]
  rw [read?, hmark, joinLineEnds_of_printed hprinted, readLines_lines (by omega)
    (by simp [Properties.get?]) hdistinct, Properties.setAll_eq_self (hnames ▸ hdistinct)]

end PartialResponse.Toml
