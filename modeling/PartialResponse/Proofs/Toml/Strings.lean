import Mathlib.Data.List.Basic
import PartialResponse.Proofs.Text.Digits
import PartialResponse.Toml.Printer

/-!
# PartialResponse.Proofs.Toml.Strings — strings of configuration text read back

There are four ways to write a string, and what is chosen depends on which escapes
it saves. Two of the ways have escapes, and any string can be written in them; the
other two are chosen only for strings that need none. Between three quotes up to
two quotes stand side by side in the string, and they may do so at its end as well:
then five quotes are left to the reader, which takes the first three for the end
and the others for a part of the string.

Main statements: `readString_writeString`, and that what is written has no control
characters but line feeds (`printed_writeString`).
-/

namespace PartialResponse.Toml

/-- What a reader gives if it reads a character and then goes on. -/
def prepend (x : Char) (read : Option (List Char × List Char)) : Option (List Char × List Char) :=
  read.map fun (t, rest) => (x :: t, rest)

@[simp] theorem prepend_some (x : Char) (t rest : List Char) :
    prepend x (some (t, rest)) = some (x :: t, rest) := rfl

variable {x : Char} {t rest : List Char}

/-! ## Escapes -/

/-- Behind a backslash, this stands for a character, and does not hide the end of a line. -/
structure Escapes (code : List Char) (x : Char) : Prop where
  reads : ∀ rest, readEscape (code ++ rest) = some (x, rest)
  seen : ∀ rest, hiddenLineEnd? (code ++ rest) = none

/-- A backslash hides the end of a line only if nothing but space stands between them. -/
theorem hiddenLineEnd?_of_ne (hspace : isSpace x = false) (hline : x ≠ '\n') :
    hiddenLineEnd? (x :: rest) = none := by
  -- the scan for the end of the line stops at the first character
  have hskip : skipSpace (x :: rest) = x :: rest := by simp [skipSpace, hspace]
  unfold hiddenLineEnd?
  rw [hskip]
  split
  · simp_all
  · rfl

/-- Four digits are enough for a character of the first plane. They never stand for a surrogate,
since there is a character with that number. -/
theorem character?_hexText (x : Char) (h : x.toNat < 0x10000) :
    character? (Text.hexText Text.upperHexDigit 4 x.toNat) = some x := by
  have hnumber : Text.hexNumber? (Text.hexText Text.upperHexDigit 4 x.toNat) =
      some (x.toNat % 16 ^ 4) :=
    Text.hexNumber?_hexText Text.hexValue?_upperHexDigit 4 x.toNat
  rw [Nat.mod_eq_of_lt (show x.toNat < 16 ^ 4 from h)] at hnumber
  have hvalid : x.toNat.isValidChar := x.valid
  rw [character?, hnumber]
  exact (dif_pos hvalid).trans rfl

/-- Four hexadecimal digits behind a `u` stand for the character with that number. -/
theorem escapes_code (h : x.toNat < 0x10000) :
    Escapes ('u' :: Text.hexText Text.upperHexDigit 4 x.toNat) x where
  reads rest := by
    have hlength := Text.length_hexText Text.upperHexDigit 4 x.toNat
    have hlong : ¬(Text.hexText Text.upperHexDigit 4 x.toNat ++ rest).length < 4 := by
      rw [List.length_append]
      omega
    rw [List.cons_append, readEscape, if_neg hlong, List.take_left' hlength, List.drop_left' hlength,
      character?_hexText x h]
    rfl
  seen rest := hiddenLineEnd?_of_ne (by decide) (by decide)

/-- A character stands for itself, or an escape stands for it. -/
theorem escape_cases (hquote : x ≠ '"') (hline : x ≠ '\n') :
    (escape x = [x] ∧ isPlain x = true ∧ x ≠ '\\') ∨
      ∃ code, escape x = '\\' :: code ∧ Escapes code x := by
  -- the escapes of one letter differ only in the letter
  have hletter : ∀ {y : Char}, isSpace y = false → y ≠ '\n' →
      (∀ rest, readEscape (y :: rest) = some (x, rest)) → Escapes [y] x :=
    fun hspace hline hreads => ⟨hreads, fun _ => hiddenLineEnd?_of_ne hspace hline⟩
  unfold escape
  split_ifs with hb ht hf hr hbackslash hcontrol
  · exact Or.inr ⟨['b'], rfl, hletter (by decide) (by decide) (by subst hb; exact fun _ => rfl)⟩
  · exact Or.inr ⟨['t'], rfl, hletter (by decide) (by decide) (by subst ht; exact fun _ => rfl)⟩
  · exact Or.inr ⟨['f'], rfl, hletter (by decide) (by decide) (by subst hf; exact fun _ => rfl)⟩
  · exact Or.inr ⟨['r'], rfl, hletter (by decide) (by decide) (by subst hr; exact fun _ => rfl)⟩
  · exact Or.inr ⟨['\\'], rfl,
      hletter (by decide) (by decide) (by subst hbackslash; exact fun _ => rfl)⟩
  · refine Or.inr ⟨_, rfl, escapes_code ?_⟩
    simp only [Bool.or_eq_true, decide_eq_true_eq] at hcontrol
    omega
  · refine Or.inl ⟨rfl, ?_, hbackslash⟩
    simp only [Bool.or_eq_true, decide_eq_true_eq, not_or] at hcontrol
    simp only [isPlain, Bool.or_eq_true, Bool.and_eq_true, decide_eq_true_eq, bne_iff_ne]
    exact Or.inr ⟨by omega, hcontrol.2⟩

theorem escapes_quote : Escapes ['"'] '"' :=
  ⟨fun _ => rfl, fun _ => hiddenLineEnd?_of_ne (by decide) (by decide)⟩

theorem escapes_line : Escapes ['n'] '\n' :=
  ⟨fun _ => rfl, fun _ => hiddenLineEnd?_of_ne (by decide) (by decide)⟩

/-! ## One line -/

/-- A quote ends the string. -/
@[simp]
theorem readBasic_close : readBasic ('"' :: rest) = some ([], rest) := by
  rw [readBasic]

/-- What needs no escape stands for itself. -/
theorem readBasic_plain (hplain : isPlain x = true) (hquote : x ≠ '"') (hbackslash : x ≠ '\\') :
    readBasic (x :: rest) = prepend x (readBasic rest) := by
  rw [readBasic]
  · rw [if_pos hplain]
    rfl
  · exact hquote
  · exact hbackslash

/-- A backslash and a code are read as the one character that the code stands for. -/
theorem readBasic_escape {code : List Char} (h : Escapes code x) (rest : List Char) :
    readBasic ('\\' :: (code ++ rest)) = prepend x (readBasic rest) := by
  rw [readBasic]
  split
  · next he =>
    rw [h.reads] at he
    cases he
    rfl
  · next he =>
    rw [h.reads] at he
    cases he

/-- Any string reads back from one line between double quotes. -/
@[simp]
theorem readBasic_writeBasic (t rest : List Char) :
    readBasic (writeBasic t ++ '"' :: rest) = some (t, rest) := by
  induction t with
  | nil => exact readBasic_close
  | cons x t ih =>
    rw [writeBasic, List.flatMap_cons, List.append_assoc]
    rw [writeBasic] at ih
    split_ifs with hquote hline
    · subst hquote
      -- a quote and a line feed have escapes of their own here, which `escape` does not write
      have hread := readBasic_escape escapes_quote (writeBasic t ++ '"' :: rest)
      rw [writeBasic, ih] at hread
      exact hread
    · subst hline
      have hread := readBasic_escape escapes_line (writeBasic t ++ '"' :: rest)
      rw [writeBasic, ih] at hread
      exact hread
    · rcases escape_cases hquote hline with ⟨hself, hplain, hbackslash⟩ | ⟨code, hcode, hescapes⟩
      · rw [hself, List.singleton_append, readBasic_plain hplain hquote hbackslash, ih, prepend_some]
      · rw [hcode, List.cons_append, readBasic_escape hescapes, ih, prepend_some]

/-- A string without quotes and control characters reads back from between single quotes. -/
theorem readLiteral_self (h : ∀ x ∈ t, isPlain x = true ∧ x ≠ '\'') (rest : List Char) :
    readLiteral (t ++ '\'' :: rest) = some (t, rest) := by
  induction t with
  | nil => rfl
  | cons x t ih =>
    obtain ⟨⟨hplain, hquote⟩, hmore⟩ := List.forall_mem_cons.1 h
    rw [List.cons_append, readLiteral, if_neg hquote, if_pos hplain, ih hmore]
    rfl

/-! ## Several lines -/

/-- What stands behind a string does not start with a quote. -/
def EndsString (rest : List Char) : Prop :=
  ∀ x ∈ rest.head?, x ≠ '"' ∧ x ≠ '\''

/-- Neither kind of quote stands behind a string. -/
theorem EndsString.ne {quote : Char} (h : EndsString rest) (hquote : quote = '"' ∨ quote = '\'') :
    ∀ x ∈ rest.head?, x ≠ quote := by
  intro x hx
  rcases hquote with rfl | rfl
  · exact (h x hx).1
  · exact (h x hx).2

/-- Up to two quotes behind the closing ones belong to the string. -/
theorem closing_replicate {quote : Char} {n : Nat} (hn : n ≤ 2)
    (hrest : ∀ x ∈ rest.head?, x ≠ quote) :
    closing quote (List.replicate n quote ++ rest) = (List.replicate n quote, rest) := by
  -- only two more quotes are looked at, and what ends the string is none
  have hmore : ((List.replicate n quote ++ rest).take 2).takeWhile (· == quote) =
      List.replicate n quote := by
    rw [List.take_append, List.take_of_length_le (by simpa using hn), List.length_replicate,
      List.takeWhile_append_of_pos (by simp)]
    cases rest with
    | nil => simp
    | cons x rest =>
      have hx : x ≠ quote := hrest x rfl
      cases h : 2 - n with
      | zero => simp
      | succ m => simp [hx]
  rw [closing, hmore]
  simp

/-- Three quotes side by side, which end a string. -/
def Closes (quote : Char) (t : List Char) : Prop :=
  ∃ rest, t = quote :: quote :: quote :: rest

/-- Up to two quotes do not end a string that goes on behind them. -/
theorem not_closes_replicate {quote : Char} {n : Nat} (hn : n ≤ 2) (hx : x ≠ quote)
    (rest : List Char) :
    ¬Closes quote (List.replicate n quote ++ x :: rest) := by
  rintro ⟨more, heq⟩
  -- with up to two quotes in front, the other character is among the first three
  match n, hn with
  | 0, _ => simp [hx] at heq
  | 1, _ => simp [hx] at heq
  | 2, _ => simp [List.replicate_succ, hx] at heq

/-- Three quotes end the string, but quotes behind them may still belong to it. -/
@[simp]
theorem readLongBasic_close : readLongBasic ('"' :: '"' :: '"' :: rest) = some (closing '"' rest) := by
  rw [readLongBasic]

/-- A character is taken as it is, a quote included, as long as no three of them start here. -/
theorem readLongBasic_char (hchar : (isPlain x || x == '\n') = true) (hbackslash : x ≠ '\\')
    (hopen : ¬Closes '"' (x :: rest)) :
    readLongBasic (x :: rest) = prepend x (readLongBasic rest) := by
  rw [readLongBasic]
  · rw [if_pos hchar]
    rfl
  · rintro more rfl rfl
    exact hopen ⟨more, rfl⟩
  · exact hbackslash

/-- Between three quotes escapes are read as on one line, since none of those that are written hides
the end of a line. -/
theorem readLongBasic_escape {code : List Char} (h : Escapes code x) (rest : List Char) :
    readLongBasic ('\\' :: (code ++ rest)) = prepend x (readLongBasic rest) := by
  rw [readLongBasic]
  split
  · next he =>
    rw [h.seen] at he
    cases he
  · split
    · next he =>
      rw [h.reads] at he
      cases he
      rfl
    · next he =>
      rw [h.reads] at he
      cases he

/-- Between single quotes strings end in the same way. -/
@[simp]
theorem readLongLiteral_close :
    readLongLiteral ('\'' :: '\'' :: '\'' :: rest) = some (closing '\'' rest) := by
  rw [readLongLiteral]

/-- There are no escapes here, so only three quotes need care. -/
theorem readLongLiteral_char (hchar : (isPlain x || x == '\n') = true)
    (hopen : ¬Closes '\'' (x :: rest)) :
    readLongLiteral (x :: rest) = prepend x (readLongLiteral rest) := by
  rw [readLongLiteral]
  · rw [if_pos hchar]
    rfl
  · rintro more rfl rfl
    exact hopen ⟨more, rfl⟩

/-- Up to two quotes in front of another character are read one by one, by a reader that does so with
each that does not start the end of the string. -/
theorem read_quotes {quote : Char} {read : List Char → Option (List Char × List Char)}
    (hread : ∀ rest, ¬Closes quote (quote :: rest) → read (quote :: rest) = prepend quote (read rest))
    {n : Nat} {behind : List Char} (hn : n ≤ 2) (hx : x ≠ quote)
    (h : read (x :: rest) = some (t, behind)) :
    read (List.replicate n quote ++ x :: rest) = some (List.replicate n quote ++ t, behind) := by
  induction n with
  | zero => exact h
  | succ n ih =>
    have hopen := not_closes_replicate hn hx rest
    rw [List.replicate_succ, List.cons_append] at hopen ⊢
    rw [hread _ hopen, ih (by omega)]
    rfl

/-- Three quotes behind `n` more of them. -/
theorem replicate_append_closing (quote : Char) (n : Nat) (rest : List Char) :
    List.replicate n quote ++ quote :: quote :: quote :: rest =
      quote :: quote :: quote :: (List.replicate n quote ++ rest) := by
  have hthree : quote :: quote :: quote :: rest = List.replicate 3 quote ++ rest := rfl
  rw [hthree, ← List.append_assoc, List.replicate_append_replicate, Nat.add_comm,
    ← List.replicate_append_replicate, List.append_assoc]
  rfl

/-- Any string reads back from several lines between double quotes. The quotes that have been written
last are left to be read, as what they stand in front of decides what they are. -/
theorem readLongBasic_writeLongBasic {n : Nat} (hn : n ≤ 2) (hrest : EndsString rest) :
    readLongBasic (List.replicate n '"' ++ (writeLongBasic n t ++ '"' :: '"' :: '"' :: rest)) =
      some (List.replicate n '"' ++ t, rest) := by
  induction t generalizing n with
  | nil =>
    rw [writeLongBasic, List.nil_append, replicate_append_closing, readLongBasic_close,
      closing_replicate hn (hrest.ne (Or.inl rfl)), List.append_nil]
  | cons x t ih =>
    -- behind anything but a quote, the count of quotes starts again
    have hfresh := ih (n := 0) (by omega)
    simp only [List.replicate_zero, List.nil_append] at hfresh
    have hquotes : ∀ rest, ¬Closes '"' ('"' :: rest) →
        readLongBasic ('"' :: rest) = prepend '"' (readLongBasic rest) :=
      fun _ => readLongBasic_char (by decide) (by decide)
    rw [writeLongBasic]
    split_ifs with hquote hfull hline
    · -- a third quote is escaped
      subst hquote
      apply read_quotes hquotes hn (by decide)
      have hread := readLongBasic_escape escapes_quote (writeLongBasic 0 t ++ '"' :: '"' :: '"' :: rest)
      rw [hfresh] at hread
      exact hread
    · subst hquote
      -- a quote that is written as it is waits with those in front of it
      have hmore := ih (n := n + 1) (by omega)
      simpa [List.replicate_succ'] using hmore
    · subst hline
      rw [List.cons_append]
      apply read_quotes hquotes hn (by decide)
      have hopen : ¬Closes '"' ('\n' :: (writeLongBasic 0 t ++ '"' :: '"' :: '"' :: rest)) :=
        not_closes_replicate (n := 0) (by omega) (by decide) _
      rw [readLongBasic_char (by decide) (by decide) hopen, hfresh, prepend_some]
    · rcases escape_cases hquote hline with ⟨hself, hplain, hbackslash⟩ | ⟨code, hcode, hescapes⟩
      · rw [hself, List.append_assoc, List.singleton_append]
        apply read_quotes hquotes hn hquote
        have hopen : ¬Closes '"' (x :: (writeLongBasic 0 t ++ '"' :: '"' :: '"' :: rest)) :=
          not_closes_replicate (n := 0) (by omega) hquote _
        rw [readLongBasic_char (by simp [hplain]) hbackslash hopen, hfresh, prepend_some]
      · rw [hcode, List.append_assoc, List.cons_append]
        apply read_quotes hquotes hn (by decide)
        rw [readLongBasic_escape hescapes, hfresh, prepend_some]

/-- A string without control characters, in which no three quotes stand side by side, reads back from
several lines between single quotes. -/
theorem readLongLiteral_self {n : Nat} (hchars : ∀ x ∈ t, (isPlain x || x == '\n') = true)
    (hruns : longestRun '\'' n t ≤ 2) (hrest : EndsString rest) :
    readLongLiteral (List.replicate n '\'' ++ (t ++ '\'' :: '\'' :: '\'' :: rest)) =
      some (List.replicate n '\'' ++ t, rest) := by
  induction t generalizing n with
  | nil =>
    rw [longestRun] at hruns
    rw [List.nil_append, replicate_append_closing, readLongLiteral_close,
      closing_replicate hruns (hrest.ne (Or.inr rfl)), List.append_nil]
  | cons x t ih =>
    obtain ⟨hchar, hmore⟩ := List.forall_mem_cons.1 hchars
    rw [longestRun] at hruns
    split_ifs at hruns with hquote
    · subst hquote
      -- the run of quotes gets longer, and stays within the bound
      have hread := ih (n := n + 1) hmore hruns
      simpa [List.replicate_succ'] using hread
    · obtain ⟨hn, hlater⟩ := Nat.max_le.1 hruns
      have hfresh := ih (n := 0) hmore hlater
      simp only [List.replicate_zero, List.nil_append] at hfresh
      have hquotes : ∀ rest, ¬Closes '\'' ('\'' :: rest) →
          readLongLiteral ('\'' :: rest) = prepend '\'' (readLongLiteral rest) :=
        fun _ => readLongLiteral_char (by decide)
      rw [List.cons_append]
      apply read_quotes hquotes hn hquote
      have hopen : ¬Closes '\'' (x :: (t ++ '\'' :: '\'' :: '\'' :: rest)) :=
        not_closes_replicate (n := 0) (by omega) hquote _
      rw [readLongLiteral_char hchar hopen, hfresh, prepend_some]

/-! ## The way that is chosen -/

/-- What a string has to be like to be written in a way. -/
def Spelling.Admits (t : List Char) : Spelling → Prop
  | basic => True
  | literal => ∀ x ∈ t, isPlain x = true ∧ x ≠ '\''
  | longBasic => True
  | longLiteral => (∀ x ∈ t, (isPlain x || x == '\n') = true) ∧ longestRun '\'' 0 t ≤ 2

/-- The way that is chosen is one that the string admits. -/
theorem admits_of (t : List Char) : (Spelling.of t).Admits t := by
  unfold Spelling.of
  simp only
  split_ifs with hbasic hliteral hlongBasic hlongLiteral hlines
  · trivial
  · intro x hx
    simp only [Bool.and_eq_true, List.all_eq_true, Bool.not_eq_true', List.contains_eq_mem,
      decide_eq_false_iff_not] at hliteral
    obtain ⟨⟨hplain, hquote⟩, hline⟩ := hliteral
    have hchar := hplain x hx
    have hx' : x ≠ '\n' := by
      -- a line feed is no character of one line
      rintro rfl
      exact hline hx
    refine ⟨by simpa [hx'] using hchar, ?_⟩
    rintro rfl
    exact hquote hx
  · trivial
  · simp only [Bool.and_eq_true, List.all_eq_true, decide_eq_true_eq] at hlongLiteral
    exact hlongLiteral
  · trivial
  · trivial

/-- The first character of a string on several lines is written as it is, or as an escape. -/
theorem exists_writeLongBasic (n : Nat) (x : Char) (t : List Char) :
    ∃ y more, writeLongBasic n (x :: t) = y :: more ∧ (y = x ∨ y = '\\') := by
  rw [writeLongBasic]
  split_ifs with hquote hfull hline
  · exact ⟨_, _, rfl, Or.inr rfl⟩
  · exact ⟨_, _, rfl, Or.inl hquote.symm⟩
  · exact ⟨_, _, rfl, Or.inl hline.symm⟩
  · rcases escape_cases hquote hline with ⟨hself, -, -⟩ | ⟨code, hcode, -⟩
    · exact ⟨_, _, by rw [hself]; rfl, Or.inl rfl⟩
    · exact ⟨_, _, by rw [hcode]; rfl, Or.inr rfl⟩

/-- The line feed that is put in front of a string is the one that is left out when it is read. -/
theorem skipLineFeed_leadingLine {written : List Char}
    (h : '\n' ∉ t → written.head? ≠ some '\n') :
    skipLineFeed (leadingLine t ++ written) = written := by
  unfold leadingLine
  split_ifs with hlines
  · rfl
  · have hhead := h (by simpa using hlines)
    unfold skipLineFeed
    split
    · simp_all
    · rfl

/-- A string on one line never starts with a quote of its own, which would make three with the
opening one. -/
theorem head?_writeBasic (t : List Char) : (writeBasic t).head? ≠ some '"' := by
  cases t with
  | nil => simp [writeBasic]
  | cons x t =>
    rw [writeBasic, List.flatMap_cons]
    split_ifs with hquote hline
    · simp
    · simp
    · rcases escape_cases hquote hline with ⟨hself, -, -⟩ | ⟨code, hcode, -⟩
      · simpa [hself] using hquote
      · simp [hcode]

/-- A quote starts a string on one line unless two more stand behind it. -/
theorem readString_one {quote : Char} {written : List Char} (hquote : quote = '"' ∨ quote = '\'')
    (hfirst : written.head? ≠ some quote) (hrest : EndsString rest) :
    readString (quote :: (written ++ quote :: rest)) =
      if quote = '"' then readBasic (written ++ quote :: rest)
      else readLiteral (written ++ quote :: rest) := by
  -- for an empty string the closing quote is the second one, and then no third follows
  have hopen : ∀ more, written ++ quote :: rest ≠ quote :: quote :: more := by
    intro more heq
    cases written with
    | nil =>
      have hnext : rest = quote :: more := by simpa using heq
      exact hrest.ne hquote quote (by simp [hnext]) rfl
    | cons x written => simp_all
  rcases hquote with rfl | rfl
  · rw [if_pos rfl, readString]
    exact hopen
  · rw [if_neg (by decide), readString]
    exact hopen

/-- A string reads back in every way that it admits. -/
theorem readString_writeAs {spelling : Spelling} (h : spelling.Admits t) (hrest : EndsString rest) :
    readString (writeAs t spelling ++ rest) = some (t, rest) := by
  cases spelling with
  | basic =>
    have htext : writeAs t .basic ++ rest = '"' :: (writeBasic t ++ '"' :: rest) := by
      simp [writeAs]
    rw [htext, readString_one (Or.inl rfl) (head?_writeBasic t) hrest, if_pos rfl,
      readBasic_writeBasic]
  | literal =>
    have htext : writeAs t .literal ++ rest = '\'' :: (t ++ '\'' :: rest) := by
      simp [writeAs]
    -- a string that starts with a quote is not written this way
    -- a line feed is put in front of a string just if it has one, so the reader takes away what was
    -- added
    have hfirst : t.head? ≠ some '\'' := by
      intro hhead
      exact (h _ (List.mem_of_head? hhead)).2 rfl
    rw [htext, readString_one (Or.inr rfl) hfirst hrest, if_neg (by decide), readLiteral_self h]
  | longBasic =>
    have htext : writeAs t .longBasic ++ rest = '"' :: '"' :: '"' ::
        (leadingLine t ++ (writeLongBasic 0 t ++ '"' :: '"' :: '"' :: rest)) := by
      simp [writeAs]
    have hfirst : '\n' ∉ t → (writeLongBasic 0 t ++ '"' :: '"' :: '"' :: rest).head? ≠ some '\n' := by
      intro hlines
      cases t with
      | nil => simp [writeLongBasic]
      | cons x t =>
        obtain ⟨y, more, hwritten, hy⟩ := exists_writeLongBasic 0 x t
        have hx : x ≠ '\n' := by
          rintro rfl
          exact hlines List.mem_cons_self
        rcases hy with rfl | rfl <;> simp [hwritten, hx]
    rw [htext, readString, skipLineFeed_leadingLine hfirst]
    exact readLongBasic_writeLongBasic (n := 0) (by omega) hrest
  | longLiteral =>
    have htext : writeAs t .longLiteral ++ rest = '\'' :: '\'' :: '\'' ::
        (leadingLine t ++ (t ++ '\'' :: '\'' :: '\'' :: rest)) := by
      simp [writeAs]
    have hfirst : '\n' ∉ t → (t ++ '\'' :: '\'' :: '\'' :: rest).head? ≠ some '\n' := by
      intro hlines
      cases t with
      | nil => simp
      | cons x t =>
        have hx : x ≠ '\n' := by
          rintro rfl
          exact hlines List.mem_cons_self
        simp [hx]
    rw [htext, readString, skipLineFeed_leadingLine hfirst]
    exact readLongLiteral_self (n := 0) h.1 h.2 hrest

/-- A string reads back from its text. -/
theorem readString_writeString (t : List Char) (hrest : EndsString rest) :
    readString (writeString t ++ rest) = some (t, rest) :=
  readString_writeAs (admits_of t) hrest

/-- A line feed and quotes of both kinds: between three double quotes, and the last two belong to
the string. -/
example : writeString "'\na\"\"".toList = "\"\"\"\n'\na\"\"\"\"\"".toList := by decide

/-! ## Characters -/

/-- The characters of a text as it is written: none that controls, but for tabs and line feeds. -/
def Printed (t : List Char) : Prop :=
  ∀ x ∈ t, (isPlain x || x == '\n') = true

instance (t : List Char) : Decidable (Printed t) :=
  List.decidableBAll _ t

theorem Printed.append {s : List Char} (hs : Printed s) (ht : Printed t) : Printed (s ++ t) :=
  List.forall_mem_append.2 ⟨hs, ht⟩

/-- Hexadecimal digits are letters and digits. -/
theorem printed_hexText (width n : Nat) : Printed (Text.hexText Text.upperHexDigit width n) := by
  have hall : ∀ n < 16, (isPlain (Text.upperHexDigit n) || Text.upperHexDigit n == '\n') = true := by
    decide
  induction width generalizing n with
  | zero => simp [Printed, Text.hexText]
  | succ width ih =>
    rw [Text.hexText]
    exact (ih (n / 16)).append (by simpa [Printed] using hall (n % 16) (Nat.mod_lt n (by decide)))

/-- Escapes are there to write control characters without them. -/
theorem printed_escape (x : Char) : Printed (escape x) := by
  unfold escape
  split_ifs with hb ht hf hr hbackslash hcontrol
  · decide
  · decide
  · decide
  · decide
  · decide
  · exact (by decide : Printed ['\\', 'u']).append (printed_hexText 4 x.toNat)
  · simp only [Bool.or_eq_true, decide_eq_true_eq, not_or] at hcontrol
    simp [Printed, isPlain]
    omega

theorem printed_writeBasic (t : List Char) : Printed (writeBasic t) := by
  intro y hy
  obtain ⟨x, -, hy⟩ := List.mem_flatMap.1 hy
  split_ifs at hy
  · exact (by decide : Printed ['\\', '"']) y hy
  · exact (by decide : Printed ['\\', 'n']) y hy
  · exact printed_escape x y hy

theorem printed_writeLongBasic (n : Nat) (t : List Char) : Printed (writeLongBasic n t) := by
  induction t generalizing n with
  | nil => exact (by decide : Printed [])
  | cons x t ih =>
    rw [writeLongBasic]
    split_ifs
    · exact (by decide : Printed ['\\', '"']).append (ih 0)
    · exact (by decide : Printed ['"']).append (ih (n + 1))
    · exact (by decide : Printed ['\n']).append (ih 0)
    · exact (printed_escape x).append (ih 0)

theorem printed_leadingLine (t : List Char) : Printed (leadingLine t) := by
  unfold leadingLine
  split_ifs <;> decide

/-- Whatever the way, the quotes and what stands between them can be printed. -/
theorem printed_writeAs {spelling : Spelling} (h : spelling.Admits t) :
    Printed (writeAs t spelling) := by
  cases spelling with
  | basic =>
    exact ((by decide : Printed ['"']).append (printed_writeBasic t)).append (by decide)
  | literal =>
    have ht : Printed t := by
      intro x hx
      simp [(h x hx).1]
    exact ((by decide : Printed ['\'']).append ht).append (by decide)
  | longBasic =>
    exact (((by decide : Printed ['"', '"', '"']).append (printed_leadingLine t)).append
      (printed_writeLongBasic 0 t)).append (by decide)
  | longLiteral =>
    exact (((by decide : Printed ['\'', '\'', '\'']).append (printed_leadingLine t)).append
      h.1).append (by decide)

/-- A string is written without characters that control, but for line feeds and tabs. -/
theorem printed_writeString (t : List Char) : Printed (writeString t) :=
  printed_writeAs (admits_of t)

end PartialResponse.Toml
