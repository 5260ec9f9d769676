import PartialResponse.Proofs.Yaml.Literal
import PartialResponse.Proofs.Yaml.Marks
import PartialResponse.Yaml.Printer.Document

/-!
# PartialResponse.Proofs.Yaml.Styles — the ways to write a string

Each way to write a string makes one step of the reader, and the token behind it
holds the string. The ways that need no more than one line may stand in front of a
colon; there the string is short enough to be a key.
-/

namespace PartialResponse.Yaml

/-! ## How a string is written -/

/-- What may be written between single quotes on one line. -/
theorem singleText_of_allowsSingle {t : List Char} (h : allowsSingle t = true) (hnewline : '\n' ∉ t) :
    SingleText t := by
  simp only [allowsSingle, Bool.and_eq_true, Bool.not_eq_true', List.all_eq_true] at h
  exact ⟨h.1.1, hnewline, h.1.2, h.2⟩

/-- A string with what its way of being written asks of it. -/
inductive Styled (s : String) : TextStyle → Prop
  | plain (hread : readsAsText s = true) (h : PlainText s.toList) : Styled s .plain
  | single (h : SingleText s.toList) : Styled s .single
  | double : Styled s .double
  | literal (hbreak : '\n' ∈ s.toList) (hne : s.toList ≠ [])
      (h : ∀ x ∈ s.toList, isPrintable x = true) : Styled s .literal

/-- The style chosen for a string is one that it can be written in. -/
theorem styled_styleOf (s : String) : Styled s (styleOf s) := by
  unfold styleOf
  dsimp only
  split
  · next hnewline =>
    split
    · next hallows =>
      simp only [allowsLiteral, Bool.and_eq_true, Bool.not_eq_true', List.all_eq_true] at hallows
      refine .literal (by simpa using hnewline) ?_ hallows.1.1.2
      simpa using hallows.1.1.1
    · exact .double
  · next hnewline =>
    have hnone : '\n' ∉ s.toList := by simpa using hnewline
    split
    · next hplain =>
      rw [Bool.and_eq_true] at hplain
      exact .plain hplain.1 (plainText_of_allowsPlain hplain.2)
    · split
      · next hsingle => exact .single (singleText_of_allowsSingle hsingle hnone)
      · exact .double

/-! ## How wide a key is -/

/-- The size of a string is the number of bytes of its characters. -/
theorem utf8ByteSize_eq (s : String) : s.utf8ByteSize = byteCount s.toList := by
  have hlength : ∀ t : List Char, (t.flatMap String.utf8EncodeChar).length = byteCount t := by
    intro t
    induction t with
    | nil => rfl
    | cons c t ih =>
      rw [List.flatMap_cons, List.length_append, ih, String.length_utf8EncodeChar]
      rfl
  rw [← String.size_toByteArray, ← String.utf8Encode_toList, List.utf8Encode, List.size_toByteArray,
    hlength]

@[simp]
theorem byteCount_cons (x : Char) (t : List Char) : byteCount (x :: t) = x.utf8Size + byteCount t :=
  rfl

/-- Writing each character with so many times its bytes at most. -/
theorem byteCount_flatMap_le {write : Char → List Char} {k : Nat}
    (hwrite : ∀ x, byteCount (write x) ≤ k * x.utf8Size) (t : List Char) :
    byteCount (t.flatMap write) ≤ k * byteCount t := by
  induction t with
  | nil => exact Nat.zero_le _
  | cons x t ih =>
    have hx := hwrite x
    simp only [List.flatMap_cons, byteCount_append, byteCount_cons, Nat.mul_add]
    omega

/-- A quote is written twice. -/
theorem byteCount_doubled (x : Char) : byteCount (doubled x) ≤ 2 * x.utf8Size := by
  unfold doubled
  split
  · next h =>
    subst h
    decide
  · rw [byteCount_cons]
    simp only [byteCount, List.foldr_nil]
    omega

/-- A digit in base 16 is one byte. -/
@[simp]
theorem byteCount_hexText (width n : Nat) :
    byteCount (Text.hexText Text.upperHexDigit width n) = width := by
  have hdigit : ∀ n < 16, byteCount [Text.upperHexDigit n] = 1 := by decide
  induction width generalizing n with
  | zero => rfl
  | succ width ih => rw [Text.hexText, byteCount_append, ih, hdigit _ (Nat.mod_lt n (by decide))]

/-- Beyond the first 256 characters each has two bytes or more. -/
theorem two_le_utf8Size {x : Char} (h : 0xFF < x.toNat) : 2 ≤ x.utf8Size := by
  have hval : ¬ x.val ≤ UInt32.ofNatLT 0x7F (by decide) := by
    simp only [UInt32.le_iff_toNat_le, UInt32.toNat_ofNatLT]
    exact Nat.not_le.2 (Nat.lt_trans (by decide) h)
  unfold Char.utf8Size
  simp only [hval, if_false]
  repeat' split
  all_goals omega

/-- No escape takes more than four times the bytes of its character. -/
theorem byteCount_writeEscaped (x : Char) : byteCount (writeEscaped x) ≤ 4 * x.utf8Size := by
  have hone := x.utf8Size_pos
  unfold writeEscaped
  split
  · next letter hletter =>
    have hsize : letter.utf8Size = 1 := by
      unfold escapeLetter? at hletter
      split at hletter
      all_goals first | cases hletter; rfl | simp at hletter
    have hslash : '\\'.utf8Size = 1 := rfl
    simp only [byteCount, List.foldr_cons, List.foldr_nil, hsize, hslash]
    omega
  · have hslash : '\\'.utf8Size = 1 := rfl
    have hmarks : 'x'.utf8Size = 1 ∧ 'u'.utf8Size = 1 ∧ 'U'.utf8Size = 1 := ⟨rfl, rfl, rfl⟩
    dsimp only
    split
    · simp only [byteCount, List.foldr_cons, List.foldr_nil]
      omega
    · next hprint =>
      split
      · simp only [byteCount_cons, byteCount_hexText, hslash, hmarks.1]
        omega
      · next hbyte =>
        have htwo := two_le_utf8Size (Nat.not_le.1 hbyte)
        split
        · simp only [byteCount_cons, byteCount_hexText, hslash, hmarks.2.1]
          omega
        · next hshort =>
          -- beyond the first plane everything can be printed
          refine absurd ?_ hprint
          simp only [isPrintable, Bool.or_eq_true, decide_eq_true_eq]
          omega

/-! ## The step past a scalar -/

namespace TokenStream

variable {c c' : Cursor} {q : List Token} {i : Int} {is : List Int} {allowed : Bool} {n indent : Nat}
  {t rest : List Char} {x y : Char}

/-- A marker of documents starts with its own character. -/
theorem atMarker_of_head (hrest : c.rest = x :: rest) {z : Char} (hz : x ≠ z) : c.atMarker z = false := by
  have hstart : c.startsWith [z, z, z] = false := by
    simp [Cursor.startsWith, hrest, List.isPrefixOf, Ne.symm hz]
  simp [Cursor.atMarker, hstart]

/-- A quoted scalar is produced at its quote, and may be a key. -/
theorem produceHere_quoted {single : Bool} {quote : Char} (hquote : quote = if single then '\'' else '"')
    (hrest : c.rest = quote :: rest)
    (hread : readQuoted single ((c.skip 1).left + 1) (c.skip 1) .none [] = .ok (t, c')) :
    (flat c q i is allowed none).produceHere =
      .ok (flat c' (q ++ [.scalar (String.ofList t) false]) i is false (noted c q i allowed)) := by
  have hcursor : (flat c q i is allowed none).cursor = c := rfl
  have hput : (flat c q i is allowed none).putQuoted single =
      .ok (flat c' (q ++ [.scalar (String.ofList t) false]) i is false (noted c q i allowed)) := by
    rw [putQuoted, noteKey_flat, ok_bind]
    simp only [flat] at hread ⊢
    rw [hread]
    rfl
  cases single with
  | true =>
    subst hquote
    have hmarker := fun z hz => @atMarker_of_head c rest '\'' hrest z hz
    simpa [produceHere, hcursor, hrest, hmarker] using hput
  | false =>
    subst hquote
    have hmarker := fun z hz => @atMarker_of_head c rest '"' hrest z hz
    simpa [produceHere, hcursor, hrest, hmarker] using hput

/-- A literal is produced at its bar, and cannot be a key. -/
theorem produceHere_literal (hrest : c.rest = '|' :: rest)
    (hread : readBlock true i (c.skip 1) = .ok (t, c')) :
    (flat c q i is allowed none).produceHere =
      .ok (flat c' (q ++ [.scalar (String.ofList t) false]) i is true none) := by
  have hcursor : (flat c q i is allowed none).cursor = c := rfl
  have hmarker := fun z hz => @atMarker_of_head c rest '|' hrest z hz
  have hput : (flat c q i is allowed none).putBlockScalar true =
      .ok (flat c' (q ++ [.scalar (String.ofList t) false]) i is true none) := by
    simp only [putBlockScalar, dropKey, flat, ok_bind, hread]
    rfl
  simpa [produceHere, hcursor, hrest, hmarker, flat, inFlow] using hput

/-- Nothing else starts like a plain scalar. -/
theorem produceHere_eq_putPlain {key : Option SimpleKey} (h : PlainText t) (hrest : c.rest = t ++ y :: rest)
    (hdash : y ≠ '-') (hdot : y ≠ '.') :
    (flat c q i is allowed key).produceHere = (flat c q i is allowed key).putPlain := by
  have hcursor : (flat c q i is allowed key).cursor = c := rfl
  have hmarker := h.not_atDocumentMarker hrest hdash hdot
  rw [Cursor.atDocumentMarker, Bool.or_eq_false_iff] at hmarker
  obtain ⟨x, more, rfl⟩ := List.exists_cons_of_ne_nil h.ne_nil
  have houter := h.noOuterMark
  simp only [hasOuterMark, Bool.or_eq_false_iff] at houter
  have hmarks := houter.1.1.1
  -- a dash, a question mark or a colon starts plain text only if no blank follows
  have hspecial : x = '-' ∨ x = '?' ∨ x = ':' → c.blankAfter 1 = false ∧ (c.skip 1).nextIs isBlank = false := by
    intro hx
    have hnext : more.head?.all isBlankOrBreak = false := by
      have hcontains : ['?', ':', '-'].contains x = true := by
        rcases hx with rfl | rfl | rfl <;> decide
      have hmark := houter.1.1.2
      rwa [hcontains, Bool.true_and] at hmark
    cases more with
    | nil => simp at hnext
    | cons z more =>
      simp only [List.head?_cons, Option.all_some, isBlankOrBreak, Bool.or_eq_false_iff] at hnext
      have hbehind : (c.skip 1).rest = z :: (more ++ y :: rest) := Cursor.rest_skip_one hrest
      exact ⟨by simp [Cursor.blankAfter, hrest, hnext.1.1, hnext.1.2], by simp [Cursor.nextIs, hbehind, hnext.1.1]⟩
  have hplain : (flat c q i is allowed key).atPlain = true := by
    have hblank := h.head x rfl
    have hbreak := h.noBreak x (by simp)
    -- either nothing marks the first character, or what follows takes the meaning away
    by_cases hx : x = '-' ∨ x = '?' ∨ x = ':'
    · have hnext := hspecial hx
      rcases hx with rfl | rfl | rfl <;>
        simp [atPlain, Cursor.at?, hrest, hnext, flat, inFlow]
    · have hindicator : isIndicator x = false := by
        simp only [not_or] at hx
        simp [isIndicator] at hmarks ⊢
        exact ⟨hx.1, hx.2.1, hx.2.2, by tauto⟩
      simp [atPlain, hcursor, Cursor.nextIs, hrest, hblank, hbreak, hindicator]
  have hflow : (flat c q i is allowed key).inFlow = false := rfl
  have hentry : ¬ (x = '-' ∧ c.blankAfter 1 = true) := fun hx => by simp [hspecial (.inl hx.1)] at hx
  have hkey : ¬ (x = '?' ∧ c.blankAfter 1 = true) := fun hx => by simp [hspecial (.inr (.inl hx.1))] at hx
  have hvalue : ¬ (x = ':' ∧ c.blankAfter 1 = true) := fun hx => by simp [hspecial (.inr (.inr hx.1))] at hx
  simp only [List.contains_eq_mem, decide_eq_false_iff_not, List.mem_cons, List.not_mem_nil, or_false,
    not_or] at hmarks
  simp [produceHere, hcursor, hrest, hmarker, hmarks, hflow, hentry, hkey, hvalue, hplain]

/-- A plain scalar is produced at its first character, and may be a key. -/
theorem produceHere_plain {newLine : Bool} (h : PlainText t) (hrest : c.rest = t ++ y :: rest)
    (hdash : y ≠ '-') (hdot : y ≠ '.')
    (hread : readPlain false (i + 1) (c.left + 1) c .none [] = .ok (t, newLine, c')) :
    (flat c q i is allowed none).produceHere =
      .ok (flat c' (q ++ [.scalar (String.ofList t) true]) i is newLine (noted c q i allowed)) := by
  rw [produceHere_eq_putPlain h hrest hdash hdot, putPlain, noteKey_flat, ok_bind]
  simp only [flat, inFlow, List.isEmpty_nil, Bool.not_true, hread]
  rfl

/-! ## Values -/

/-- A line that does not end with a break gets one. -/
theorem endLine_of_last (hlast : t.getLast? = some x) (hx : isBreak x = false) :
    endLine t = t ++ ['\n'] := by
  simp [endLine, hlast, hx]

/-- A plain scalar behind which the line ends. -/
theorem runs_plain (h : PlainText t) (hrest : c.rest = endLine t ++ (List.replicate n ' ' ++ rest))
    (hcol : i < c.column) (hfollows : Follows i n rest) :
    ∃ c', Runs (flat c q i is allowed none)
        ((flat c' (q ++ [.scalar (String.ofList t) true]) i is true none).unindentTo n) ∧
      c.Below n rest c' := by
  obtain ⟨x, hx⟩ : ∃ x, t.getLast? = some x := ⟨_, List.getLast?_eq_some_getLast h.ne_nil⟩
  rw [endLine_of_last hx (h.noBreak x (List.mem_of_mem_getLast? hx)), List.append_assoc] at hrest
  obtain ⟨c', hread, hbelow⟩ := readPlain_value h hrest hfollows
  have hproduce := @produceHere_plain c c' q i is allowed t _ _ true h hrest (by decide) (by decide) hread
  have happroach := @approach_spaces c' (q ++ [.scalar (String.ofList t) true]) i is true
    (noted c q i allowed) 0 rest none hbelow.rest_eq hfollows.head
    (refreshKey_of_goesBefore (goesBefore_noted hcol hbelow.line_lt))
  rw [Cursor.skip_zero, hbelow.column_eq] at happroach
  have hless : c'.left < c.left := by
    refine Cursor.left_lt_of_rest (a := t ++ '\n' :: List.replicate n ' ') ?_ (by simp)
    rw [hrest, hbelow.rest_eq]
    simp
  exact ⟨c', .single (step_flat hproduce happroach hless), hbelow⟩

/-- A quoted scalar behind which the line ends. -/
theorem runs_quoted {single : Bool} {quote : Char} {inside : List Char}
    (hquote : quote = if single then '\'' else '"')
    (hrest : c.rest = quote :: (inside ++ '\n' :: (List.replicate n ' ' ++ rest)))
    (hread : readQuoted single ((c.skip 1).left + 1) (c.skip 1) .none [] = .ok (t, c'))
    (hrest' : c'.rest = '\n' :: (List.replicate n ' ' ++ rest)) (hline : c.line ≤ c'.line)
    (hcol : i < c.column) (hhead : ∀ x ∈ rest.head?, startsToken x = true) :
    ∃ c', Runs (flat c q i is allowed none)
        ((flat c' (q ++ [.scalar (String.ofList t) false]) i is true none).unindentTo n) ∧
      c.Below n rest c' := by
  have hproduce := @produceHere_quoted c c' q i is allowed t _ single quote hquote hrest hread
  obtain ⟨d, happroach, hbelow⟩ := @approach_newline c' (q ++ [.scalar (String.ofList t) false]) i is false
    (noted c q i allowed) n rest hrest' hhead (goesBefore_noted hcol (Nat.lt_succ_of_le hline))
  have hless : c'.left < c.left :=
    Cursor.left_lt_of_rest (a := quote :: inside) (by rw [hrest, hrest']; rfl) (by simp)
  exact ⟨d, .single (step_flat hproduce happroach hless), hbelow.rest_eq, hbelow.column_eq,
    Nat.lt_of_le_of_lt hline hbelow.line_lt⟩

/-- A line gets the break that it lacks. -/
theorem endLine_eq (t : List Char) : endLine t = t ++ missingBreak t := by
  unfold endLine missingBreak
  split <;> simp

/-- A literal is its header and its indented lines. -/
theorem literalText_eq (indent : Nat) (t : List Char) :
    literalText indent t = '|' :: (widthMark (hidesIndent t) ++ chompingMark t ++ '\n' ::
      writeLines indent asIs true t) := by
  unfold literalText widthMark hidesIndent
  rfl

/-- A block lacks the line break at its end that its text lacks. -/
theorem missingBreak_literalText (indent : Nat) (hne : t ≠ []) :
    missingBreak (literalText indent t) = missingBreak t := by
  obtain ⟨x, hx⟩ : ∃ x, t.getLast? = some x := ⟨_, List.getLast?_eq_some_getLast hne⟩
  have hlast : (literalText indent t).getLast? = t.getLast? := by
    rw [literalText_eq, List.getLast?_cons, List.getLast?_append, List.getLast?_cons, getLast?_writeLines, hx]
    rfl
  rw [missingBreak, missingBreak, hlast]

/-- A literal block. -/
theorem runs_literal (hne : t ≠ []) (hprint : ∀ x ∈ t, isPrintable x = true)
    (hindent : indent = i.toNat + 2)
    (hrest : c.rest = endLine (literalText indent t) ++ (List.replicate n ' ' ++ rest))
    (hfollows : Follows i n rest) :
    ∃ c', Runs (flat c q i is allowed none)
        ((flat c' (q ++ [.scalar (String.ofList t) false]) i is true none).unindentTo n) ∧
      c.Below n rest c' := by
  rw [endLine_eq, missingBreak_literalText indent hne, literalText_eq] at hrest
  have hrest' : c.rest = '|' :: (widthMark (hidesIndent t) ++ chompingMark t ++ '\n' ::
      (writeLines indent asIs true t ++ missingBreak t ++ (List.replicate n ' ' ++ rest))) := by
    rw [hrest]
    simp
  have hhead : ∀ x ∈ rest.head?, isBreak x = false ∧ isBlank x = false := by
    intro x hx
    have hstart := startsToken_iff.1 (hfollows.head x hx)
    exact ⟨hstart.2.1, hstart.1⟩
  -- what follows the block is indented less, so the block ends there
  have hn : n < indent := by
    rcases hfollows.ends with h | ⟨rfl, -⟩ <;> omega
  obtain ⟨c', hread, hbelow⟩ := readBlock_literal hindent hn hhead hne hprint
    (Cursor.rest_skip_one hrest')
  have hproduce := @produceHere_literal c c' q i is allowed t _ hrest' hread
  have happroach := @approach_spaces c' (q ++ [.scalar (String.ofList t) false]) i is true none 0 rest none
    hbelow.rest_eq hfollows.head rfl
  rw [Cursor.skip_zero, hbelow.column_eq] at happroach
  have hless : c'.left < c.left := by
    refine Cursor.left_lt_of_rest (a := '|' :: (widthMark (hidesIndent t) ++ chompingMark t ++ '\n' ::
      (writeLines indent asIs true t ++ missingBreak t ++ List.replicate n ' '))) ?_ (by simp)
    rw [hrest, hbelow.rest_eq]
    simp
  exact ⟨c', .single (step_flat hproduce happroach hless), hbelow.rest_eq, hbelow.column_eq,
    hbelow.line_lt⟩

/-- Between single quotes stand the lines of a text, and behind a last line break the indentation.
-/
theorem singleText_eq (indent : Nat) (t : List Char) :
    singleText indent t = '\'' :: (writeLines indent doubled false t ++ singleEnd indent (endsFresh false t)) := by
  have hfresh : endsFresh false t = t.getLast?.any isBreak := by
    unfold endsFresh
    cases t.getLast? <;> rfl
  unfold singleText singleEnd
  rw [hfresh]
  simp
  rfl

/-- A string between single quotes. -/
theorem runs_single (h : SingleText t) (hindent : indent = i.toNat + 2)
    (hrest : c.rest = endLine (singleText indent t) ++ (List.replicate n ' ' ++ rest))
    (hcol : i < c.column) (hhead : ∀ x ∈ rest.head?, startsToken x = true) :
    ∃ c', Runs (flat c q i is allowed none)
        ((flat c' (q ++ [.scalar (String.ofList t) false]) i is true none).unindentTo n) ∧
      c.Below n rest c' := by
  have hlast : (singleText indent t).getLast? = some '\'' := by
    simp [singleText_eq, singleEnd, List.getLast?_cons]
  rw [endLine_of_last hlast rfl, singleText_eq] at hrest
  have hrest' : c.rest = '\'' :: (writeLines indent doubled false t ++
      singleEnd indent (endsFresh false t) ++ '\n' :: (List.replicate n ' ' ++ rest)) := by
    rw [hrest]
    simp
  have hbehind := Cursor.rest_skip_one hrest'
  rw [List.append_assoc] at hbehind
  have hopened : Quoting indent ('\n' :: (List.replicate n ' ' ++ rest)) (c.skip 1) .none t :=
    ⟨h, Pending.before_none, hbehind, fun _ => Cursor.column_skip_ne_zero hrest'⟩
  obtain ⟨c', hread, hc', hline⟩ := @readQuoted_single _ ((c.skip 1).left + 1) [] t _ indent .none
    (by omega) hopened (by simp) (Nat.lt_succ_self _)
  exact @runs_quoted c c' q i is allowed n t rest true '\'' _ rfl hrest' hread hc' hline hcol hhead

/-- A string between double quotes. -/
theorem runs_double (hrest : c.rest = endLine (doubleText t) ++ (List.replicate n ' ' ++ rest))
    (hcol : i < c.column) (hhead : ∀ x ∈ rest.head?, startsToken x = true) :
    ∃ c', Runs (flat c q i is allowed none)
        ((flat c' (q ++ [.scalar (String.ofList t) false]) i is true none).unindentTo n) ∧
      c.Below n rest c' := by
  have hlast : (doubleText t).getLast? = some '"' := by
    simp [doubleText, List.getLast?_cons]
  rw [endLine_of_last hlast rfl, doubleText] at hrest
  have hrest' : c.rest = '"' :: (t.flatMap writeEscaped ++ ['"'] ++ '\n' ::
      (List.replicate n ' ' ++ rest)) := by
    rw [hrest]
    simp
  have hafter : (c.skip 1).rest = t.flatMap writeEscaped ++ ['"'] ++
      '\n' :: (List.replicate n ' ' ++ rest) :=
    Cursor.rest_skip_one hrest'
  have hc' := Cursor.rest_skip hafter
  rw [List.length_append, List.length_singleton] at hc'
  rw [List.append_assoc] at hafter
  have hread := @readQuoted_double (c.skip 1) ((c.skip 1).left + 1) [] [] t _ hafter
    (Cursor.column_skip_ne_zero hrest') (Nat.lt_succ_self _)
  -- written in one line, the string ends at its closing quote
  exact @runs_quoted c _ q i is allowed n t rest false '"' _ rfl hrest' hread hc' (Nat.le_refl _) hcol hhead

/-- The token of a string. -/
def stringToken (s : String) : Token :=
  .scalar s (styleOf s == .plain)

/-- A string behind which the line ends. -/
theorem runs_string {s : String} (hindent : indent = i.toNat + 2)
    (hrest : c.rest = endLine (textOf indent s) ++ (List.replicate n ' ' ++ rest))
    (hcol : i < c.column) (hfollows : Follows i n rest) :
    ∃ c', Runs (flat c q i is allowed none)
        ((flat c' (q ++ [stringToken s]) i is true none).unindentTo n) ∧ c.Below n rest c' := by
  have hstyled := styled_styleOf s
  unfold textOf at hrest
  unfold stringToken
  -- the way of writing only matters through what it says about the text
  generalize styleOf s = style at hrest hstyled ⊢
  have htext : String.ofList s.toList = s := String.ofList_toList
  cases hstyled with
  | plain _ h =>
    have hruns := @runs_plain c q i is allowed n _ rest h hrest hcol hfollows
    rwa [htext] at hruns
  | literal _ hne h =>
    have hruns := @runs_literal c q i is allowed n indent _ rest hne h hindent hrest hfollows
    rwa [htext] at hruns
  | single h =>
    have hruns := @runs_single c q i is allowed n indent _ rest h hindent hrest hcol hfollows.head
    rwa [htext] at hruns
  | double =>
    have hruns := @runs_double c q i is allowed n _ rest hrest hcol hfollows.head
    rwa [htext] at hruns

/-! ## Keys -/

/-- On one line nothing is indented. -/
theorem writeLines_doubled (hbreak : ∀ x ∈ t, isBreak x = false) :
    writeLines indent doubled false t = t.flatMap doubled := by
  induction t with
  | nil => rfl
  | cons x t ih =>
    obtain ⟨hx, ht⟩ := List.forall_mem_cons.1 hbreak
    simp [writeLines, hx, ih ht]

/-- Between single quotes, a text of one line. -/
theorem singleText_line (hbreak : ∀ x ∈ t, isBreak x = false) :
    singleText indent t = '\'' :: (t.flatMap doubled ++ ['\'']) := by
  have hfresh : endsFresh false t = false := by
    unfold endsFresh
    cases hlast : t.getLast? with
    | none => rfl
    | some x => exact hbreak x (List.mem_of_mem_getLast? hlast)
  rw [singleText_eq, writeLines_doubled hbreak, hfresh]
  rfl

/-- A text between quotes takes two bytes more than the text. -/
theorem byteCount_quoted {quote : Char} (hquote : quote.utf8Size = 1) (written : List Char) :
    byteCount (quote :: (written ++ [quote])) = byteCount written + 2 := by
  have hlast : byteCount [quote] = quote.utf8Size := rfl
  rw [byteCount_cons, byteCount_append, hlast, hquote]
  omega

/-- A key between quotes, which is produced up to its closing quote. -/
theorem produceHere_quotedKey {s : String} {written : List Char} {single : Bool} {quote : Char}
    (hquote : quote = if single then '\'' else '"')
    (hrest : c.rest = quote :: (written ++ [quote]) ++ ':' :: y :: rest)
    (hread : readQuoted single ((c.skip 1).left + 1) (c.skip 1) .none [] =
      .ok (s.toList, (c.skip 1).skip (written.length + 1))) :
    (flat c q i is allowed none).produceHere =
      .ok (flat (c.skip (quote :: (written ++ [quote])).length) (q ++ [.scalar s false]) i is false
        (noted c q i allowed)) := by
  have hlength : (quote :: (written ++ [quote])).length = 1 + (written.length + 1) := by
    rw [List.length_cons, List.length_append, List.length_singleton]
    omega
  have hproduce := @produceHere_quoted c _ q i is allowed s.toList _ single quote hquote hrest hread
  rwa [String.ofList_toList, Cursor.skip_skip, ← hlength] at hproduce

/-- A key on one line, which fits into the room for keys. -/
theorem produceHere_simpleKey {s : String} (hkey : isSimpleKey s = true)
    (hrest : c.rest = textOf indent s ++ ':' :: y :: rest) (hy : (isBlank y || isBreak y) = true) :
    (flat c q i is allowed none).produceHere =
        .ok (flat (c.skip (textOf indent s).length) (q ++ [stringToken s]) i is false (noted c q i allowed)) ∧
      byteCount (textOf indent s) ≤ 1024 := by
  simp only [isSimpleKey, isMultiline, Bool.and_eq_true, Bool.not_eq_true', List.any_eq_false,
    Bool.not_eq_true, decide_eq_true_eq, utf8ByteSize_eq] at hkey
  obtain ⟨hbreak, hwide⟩ := hkey
  have hstyled := styled_styleOf s
  unfold textOf at hrest ⊢
  unfold stringToken
  generalize styleOf s = style at hrest hstyled ⊢
  cases hstyled with
  | plain _ h =>
    have hproduce := @produceHere_plain c _ q i is allowed s.toList _ _ false h hrest (by decide) (by decide)
      (readPlain_key h hrest hy)
    rw [String.ofList_toList] at hproduce
    exact ⟨hproduce, by dsimp only; omega⟩
  -- a key has no line breaks, so it is not written as a block
  | literal hnewline _ _ => exact absurd (hbreak _ hnewline) (by decide)
  | single h =>
    dsimp only at hrest ⊢
    rw [singleText_line hbreak] at hrest ⊢
    have hrest' : c.rest = '\'' :: (s.toList.flatMap doubled ++ '\'' :: ':' :: y :: rest) := by
      rw [hrest]
      simp
    have hread := @readQuoted_single_line (c.skip 1) ((c.skip 1).left + 1) [] [] s.toList _ hbreak
      (fun x hx => eq_space_of_isBlank (h.printable x hx)) (Cursor.rest_skip_one hrest') (by simp)
      (Cursor.column_skip_ne_zero hrest') (Nat.lt_succ_self _)
    -- doubling quotes at most doubles the bytes, and the key is short enough for that
    have hbytes := byteCount_flatMap_le byteCount_doubled s.toList
    exact ⟨produceHere_quotedKey rfl hrest hread, by rw [byteCount_quoted rfl]; omega⟩
  | double =>
    have hrest' : c.rest = '"' :: (s.toList.flatMap writeEscaped ++ '"' :: ':' :: y :: rest) := by
      rw [hrest]
      simp [doubleText]
    have hread := @readQuoted_double (c.skip 1) ((c.skip 1).left + 1) [] [] s.toList _
      (Cursor.rest_skip_one hrest') (Cursor.column_skip_ne_zero hrest') (Nat.lt_succ_self _)
    -- an escape takes more room, which is allowed for as well
    have hbytes := byteCount_flatMap_le byteCount_writeEscaped s.toList
    have htext : doubleText s.toList = '"' :: (s.toList.flatMap writeEscaped ++ ['"']) := rfl
    dsimp only at hrest ⊢
    rw [htext] at hrest ⊢
    exact ⟨produceHere_quotedKey rfl hrest hread, by rw [byteCount_quoted rfl]; omega⟩

/-- No string is written as nothing. -/
theorem textOf_ne_nil (indent : Nat) (s : String) : textOf indent s ≠ [] := by
  have hstyled := styled_styleOf s
  unfold textOf
  generalize styleOf s = style at hstyled ⊢
  cases hstyled with
  | plain _ h => exact h.ne_nil
  | single _ => simp [singleText]
  | double => simp [doubleText]
  | literal _ _ _ => simp [literalText]

/-- A key on one line and its colon, by which it is known as a key. -/
theorem runs_key {opening closing : List Token} {js : List Int} {s : String} (hkey : isSimpleKey s = true)
    (hrest : c.rest = textOf indent s ++ ':' :: y :: rest) (hy : (isBlank y || isBreak y) = true)
    (hcolon : y ≠ ':') (henters : Enters .blockMappingStart c.column i is opening closing js) :
    ∃ c', Step (flat c q i is true none) (flat c' (q ++ [stringToken s]) i is false (some (keyHere c q i))) ∧
      (flat c' (q ++ [stringToken s]) i is false (some (keyHere c q i))).produceHere =
        .ok (flat (c'.skip 1) (q ++ (opening ++ [.key, stringToken s, .value])) c.column js false none) ∧
      c'.rest = ':' :: y :: rest ∧ c.column ≤ c'.column := by
  obtain ⟨hproduce, hbytes⟩ := @produceHere_simpleKey c q i is true indent rest y s hkey hrest hy
  have hrest' := Cursor.rest_skip hrest
  have hcolumn := Cursor.column_skip hrest
  have hindex := Cursor.index_skip hrest
  have hle := henters.le
  -- a key of so few bytes on the same line is not given up
  have hkept : (flat ((c.skip (textOf indent s).length).skip 0) (q ++ [stringToken s]) i is false
      (some (keyHere c q i))).refreshKey (some (keyHere c q i)) = .ok (some (keyHere c q i)) := by
    rw [Cursor.skip_zero]
    have hfresh := @isStale_noted c q i true (c.skip (textOf indent s).length) (flat (c.skip
      (textOf indent s).length) (q ++ [stringToken s]) i is false (some (keyHere c q i))) rfl rfl (by omega)
      (keyHere c q i) rfl
    simp [refreshKey, hfresh]
  have happroach := @approach_spaces (c.skip (textOf indent s).length) (q ++ [stringToken s]) i is false
    (some (keyHere c q i)) 0 (':' :: y :: rest) _ hrest' (by simp [startsToken]; decide) hkept
  rw [Cursor.skip_zero, unindentTo_of_le (by simp only [flat]; omega)] at happroach
  have hless : (c.skip (textOf indent s).length).left < c.left :=
    Cursor.left_lt_of_rest (by rw [hrest, hrest']) (textOf_ne_nil indent s)
  exact ⟨_, step_flat hproduce happroach hless, produceHere_colon hrest' hy hcolon rfl henters, hrest',
    by omega⟩

end TokenStream

end PartialResponse.Yaml
