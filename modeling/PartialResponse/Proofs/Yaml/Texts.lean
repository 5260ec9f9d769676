import PartialResponse.Document.Writer
import PartialResponse.Proofs.Yaml.Scanning

/-!
# PartialResponse.Proofs.Yaml.Texts — the tokens of a written text

A text of documents is scanned from its start to its end, with a marker in front of
each document but the first. What is written holds no forbidden characters.
-/

namespace PartialResponse.Yaml

open TokenStream

/-! ## What is written can be printed -/

/-- Whether all characters of a text can be printed. -/
def AllPrintable (t : List Char) : Prop :=
  ∀ x ∈ t, isPrintable x = true

theorem AllPrintable.append {s t : List Char} (hs : AllPrintable s) (ht : AllPrintable t) :
    AllPrintable (s ++ t) := by
  intro x hx
  exact (List.mem_append.1 hx).elim (hs x) (ht x)

theorem AllPrintable.cons {x : Char} {t : List Char} (hx : isPrintable x = true) (ht : AllPrintable t) :
    AllPrintable (x :: t) :=
  List.forall_mem_cons.2 ⟨hx, ht⟩

theorem allPrintable_nil : AllPrintable [] := by simp [AllPrintable]

theorem allPrintable_spaces (n : Nat) : AllPrintable (List.replicate n ' ') := by
  intro x hx
  rw [List.eq_of_mem_replicate hx]
  decide

/-- Lines of a scalar are indented with spaces, and what is between is written character by
character. -/
theorem allPrintable_writeLines {write : Char → List Char} {indent : Nat} {t : List Char}
    (ht : AllPrintable t) (hwrite : ∀ x, isPrintable x = true → AllPrintable (write x)) (fresh : Bool) :
    AllPrintable (writeLines indent write fresh t) := by
  induction t generalizing fresh with
  | nil => exact allPrintable_nil
  | cons x t ih =>
    obtain ⟨hx, ht⟩ := List.forall_mem_cons.1 ht
    rw [writeLines]
    split
    · exact .cons hx (ih ht true)
    · refine AllPrintable.append (AllPrintable.append ?_ (hwrite x hx)) (ih ht false)
      split
      · exact allPrintable_spaces indent
      · exact allPrintable_nil

/-- Digits of a number in base 16. -/
theorem allPrintable_hexText (width n : Nat) : AllPrintable (Text.hexText Text.upperHexDigit width n) := by
  have hdigit : ∀ n < 16, isPrintable (Text.upperHexDigit n) = true := by decide
  induction width generalizing n with
  | zero => exact allPrintable_nil
  | succ width ih => exact (ih _).append (.cons (hdigit _ (Nat.mod_lt n (by decide))) allPrintable_nil)

/-- An escaped character can be printed, whatever the character is. -/
theorem allPrintable_writeEscaped (x : Char) : AllPrintable (writeEscaped x) := by
  unfold writeEscaped
  split
  · next letter hletter =>
    -- the letters behind a backslash are among a few
    have hprint : isPrintable letter = true := by
      unfold escapeLetter? at hletter
      split at hletter
      all_goals first | cases hletter; rfl | simp at hletter
    exact .cons (by decide) (.cons hprint allPrintable_nil)
  · split
    · next hprint => exact .cons hprint allPrintable_nil
    · dsimp only
      split
      · exact .cons (by decide) (.cons (by decide) (allPrintable_hexText _ _))
      · split
        · exact .cons (by decide) (.cons (by decide) (allPrintable_hexText _ _))
        · exact .cons (by decide) (.cons (by decide) (allPrintable_hexText _ _))

theorem allPrintable_mark {x : Char} (hx : isPrintable x = true) : AllPrintable [x] :=
  .cons hx allPrintable_nil

/-- A quote in single quotes is written twice. -/
theorem allPrintable_doubled (x : Char) (hx : isPrintable x = true) : AllPrintable (doubled x) := by
  unfold doubled
  split
  · exact .cons (by decide) (allPrintable_mark (by decide))
  · exact allPrintable_mark hx

/-- The mark that says what becomes of the line breaks at the end of a literal. -/
theorem allPrintable_chompingMark (t : List Char) : AllPrintable (chompingMark t) := by
  unfold chompingMark
  repeat' split
  all_goals first | exact allPrintable_nil | exact allPrintable_mark (by decide)

/-- A text in single quotes. -/
theorem allPrintable_singleText {indent : Nat} {t : List Char} (h : AllPrintable t) :
    AllPrintable (singleText indent t) := by
  rw [singleText_eq]
  refine .cons (by decide) (.append (allPrintable_writeLines h allPrintable_doubled false) ?_)
  unfold singleEnd
  split
  · exact .append (allPrintable_spaces indent) (allPrintable_mark (by decide))
  · exact allPrintable_mark (by decide)

/-- A text in double quotes can be printed even if the text itself cannot. -/
theorem allPrintable_doubleText (t : List Char) : AllPrintable (doubleText t) := by
  refine .append (.cons (by decide) ?_) (allPrintable_mark (by decide))
  intro x hx
  obtain ⟨y, -, hy⟩ := List.mem_flatMap.1 hx
  exact allPrintable_writeEscaped y x hy

/-- A literal. -/
theorem allPrintable_literalText {indent : Nat} {t : List Char} (h : AllPrintable t) :
    AllPrintable (literalText indent t) := by
  have hlines := @allPrintable_writeLines _ indent _ h (fun _ hx => allPrintable_mark hx) true
  refine .append (.append (.cons (by decide) ?_) (allPrintable_chompingMark t)) (.cons (by decide) hlines)
  split
  · exact allPrintable_mark (by decide)
  · exact allPrintable_nil

/-- A text in the style that is chosen for it: only double quotes are used for characters that
cannot be printed. -/
theorem allPrintable_textOf (indent : Nat) (s : String) : AllPrintable (textOf indent s) := by
  have hstyled := styled_styleOf s
  unfold textOf
  generalize styleOf s = style at hstyled ⊢
  cases hstyled with
  | plain _ h => exact h.printable
  | single h => exact allPrintable_singleText h.printable
  | double => exact allPrintable_doubleText _
  | literal _ _ h => exact allPrintable_literalText h

/-- A scalar, whether it is a text or not. -/
theorem allPrintable_scalarText (indent : Nat) (value : Scalar) :
    AllPrintable (scalarText indent value) := by
  by_cases h : ∃ s, value = .string s
  · obtain ⟨s, rfl⟩ := h
    exact allPrintable_textOf indent s
  · exact (plainText_scalar (fun s hs => h ⟨s, hs⟩) indent).1.printable

theorem AllPrintable.endLine {t : List Char} (h : AllPrintable t) : AllPrintable (endLine t) := by
  unfold Yaml.endLine
  split
  · exact h
  · exact h.append (allPrintable_mark (by decide))

/-- Whether a value is written with characters that can be printed, wherever it stands. -/
def WritesPrintable (value : Tree) : Prop :=
  (∀ indent inner, AllPrintable (writeHere indent inner value)) ∧
    ∀ indent, AllPrintable (writeBehindKey indent value)

/-- The items of a sequence, each behind a dash. -/
theorem allPrintable_writeItems {items : List Tree} (hitems : ∀ item ∈ items, WritesPrintable item)
    {lead : List Char} (hlead : AllPrintable lead) (indent : Nat) :
    AllPrintable (writeItems lead indent items) := by
  induction items generalizing lead with
  | nil => simpa [writeItems] using allPrintable_nil
  | cons item more ih =>
    obtain ⟨hitem, hmore⟩ := List.forall_mem_cons.1 hitems
    rw [writeItems]
    refine .append (.append hlead (.cons (by decide) (.cons (by decide) (hitem.1 _ _)))) ?_
    exact ih hmore (allPrintable_spaces indent)

/-- The properties of a mapping, each behind its key. -/
theorem allPrintable_writeProperties {properties : Properties Tree}
    (hvalues : ∀ property ∈ properties, WritesPrintable property.2) {lead : List Char}
    (hlead : AllPrintable lead) (indent : Nat) :
    AllPrintable (writeProperties lead indent properties) := by
  induction properties generalizing lead with
  | nil => simpa [writeProperties] using allPrintable_nil
  | cons property more ih =>
    obtain ⟨hvalue, hmore⟩ := List.forall_mem_cons.1 hvalues
    obtain ⟨name, value⟩ := property
    have hkey := allPrintable_textOf (indent + 2) name
    rw [writeProperties]
    refine .append (.append hlead ?_) (ih hmore (allPrintable_spaces indent))
    split
    · exact .append hkey (.cons (by decide) (hvalue.2 indent))
    · exact .append (.append (.cons (by decide) (.cons (by decide) hkey.endLine)) (allPrintable_spaces indent))
        (.cons (by decide) (.cons (by decide) (hvalue.1 _ _)))

/-- Every value is written with characters that can be printed. -/
theorem writesPrintable (value : Tree) : WritesPrintable value := by
  -- a collection without content is written as a pair of brackets
  have hempty : ∀ left right : Char, isPrintable left = true → isPrintable right = true →
      AllPrintable [left, right, '\n'] :=
    fun left right hleft hright => .cons hleft (.cons hright (allPrintable_mark (by decide)))
  induction value using Tree.induct with
  | scalar value =>
    constructor
    · intro indent inner
      rw [writeHere]
      exact (allPrintable_scalarText inner value).endLine
    · intro indent
      rw [writeBehindKey]
      exact .cons (by decide) (allPrintable_scalarText _ value).endLine
  | array items ih =>
    constructor
    · intro indent inner
      rw [writeHere]
      split
      · exact hempty '[' ']' (by decide) (by decide)
      · exact allPrintable_writeItems ih allPrintable_nil indent
    · intro indent
      rw [writeBehindKey]
      split
      · exact .cons (by decide) (hempty '[' ']' (by decide) (by decide))
      · exact allPrintable_writeItems ih (.cons (by decide) (allPrintable_spaces _)) indent
  | object properties ih =>
    constructor
    · intro indent inner
      rw [writeHere]
      split
      · exact hempty '{' '}' (by decide) (by decide)
      · exact allPrintable_writeProperties ih allPrintable_nil indent
    · intro indent
      rw [writeBehindKey]
      split
      · exact .cons (by decide) (hempty '{' '}' (by decide) (by decide))
      · exact allPrintable_writeProperties ih (.cons (by decide) (allPrintable_spaces _)) _

theorem allPrintable_write (value : Tree) : AllPrintable (write value) :=
  (writesPrintable value).1 0 2

/-- What can be printed is allowed in a text. -/
theorem isAllowed_of_isPrintable {x : Char} (h : isPrintable x = true) : isAllowed x = true := by
  simp only [isPrintable, isAllowed, Bool.or_eq_true, Bool.and_eq_true, decide_eq_true_eq, beq_iff_eq,
    bne_iff_ne] at h ⊢
  omega

/-- A text that can be printed has no forbidden character, so no block of it is faulty. -/
theorem faultyBlock?_eq_none {t : List Char} (h : AllPrintable t) (start index : Nat) :
    faultyBlock? start index t = none := by
  induction t generalizing start index with
  | nil => rfl
  | cons x t ih =>
    obtain ⟨hx, ht⟩ := List.forall_mem_cons.1 h
    simp [faultyBlock?, isAllowed_of_isPrintable hx, ih ht]

/-! ## Documents one after the other -/

/-- The text behind a document. -/
def documentsBehind : List Tree → List Char
  | [] => []
  | value :: more => '-' :: '-' :: '-' :: '\n' :: (write value ++ documentsBehind more)

/-- The tokens behind a document. -/
def documentTokens : List Tree → List Token
  | [] => [.streamEnd]
  | value :: more => .documentStart :: (tokensOf value ++ documentTokens more)

/-- A text of documents is its first value and what stands behind it. -/
theorem writeYaml_cons (value : Tree) (more : List Tree) :
    Document.writeYaml (value :: more) = write value ++ documentsBehind more := by
  induction more generalizing value with
  | nil => simp [Document.writeYaml, documentsBehind]
  | cons next more ih => rw [Document.writeYaml, ih, documentsBehind]; simp

/-- The markers between documents can be printed. -/
theorem allPrintable_documentsBehind (values : List Tree) : AllPrintable (documentsBehind values) := by
  induction values with
  | nil => exact allPrintable_nil
  | cons value more ih =>
    rw [documentsBehind]
    exact .append (AllPrintable.cons (by decide) (.cons (by decide) (.cons (by decide)
      (.cons (by decide) (allPrintable_write value))))) ih

/-- A document is followed by a marker or by the end of the text. -/
theorem follows_documentsBehind (values : List Tree) : Follows (-1) 0 (documentsBehind values) := by
  cases values with
  | nil => exact ⟨by simp [documentsBehind], .inr ⟨rfl, .inl rfl⟩⟩
  | cons value more => exact ⟨by simp [documentsBehind]; decide, .inr ⟨rfl, .inr ⟨_, rfl⟩⟩⟩

variable {c : Cursor} {q : List Token} {i : Int} {is : List Int} {allowed : Bool} {n : Nat}
  {rest : List Char} {queue : List Token} {a : TokenStream}

/-- Closing levels of indentation changes the queue and the levels only. -/
theorem exists_unindentTo (c : Cursor) (q : List Token) (i : Int) (is : List Int) (allowed : Bool) (m : Int) :
    ∃ q' i' is', (flat c q i is allowed none).unindentTo m = flat c q' i' is' allowed none := by
  by_cases h : i ≤ m
  · exact ⟨q, i, is, unindentTo_of_le h⟩
  · rw [unindentTo_flat (Int.not_le.1 h)]
    split
    · exact ⟨q, i, is, rfl⟩
    · exact ⟨_, _, _, rfl⟩

/-- In front of a marker or of the end of the text, all collections end. -/
theorem Scans.ground (h : Scans a (-1) [] q 0 rest) :
    ∃ c q' i is, Runs a (flat c q' i is true none) ∧ c.rest = rest ∧ c.column = 0 ∧
      (flat c q' i is true none).unindentTo (-1) = flat c q (-1) [] true none := by
  obtain ⟨c, q', i, is, hrun, hrest, hcolumn, hground, hends⟩ := h
  -- the levels that ended in the column 0 end at the marker as well
  obtain ⟨q₁, i₁, is₁, hsame⟩ := exists_unindentTo c q' i is true (0 : Nat)
  rw [hsame] at hrun
  have hall : (flat c q (-1) [] true none).unindentTo (-1) = flat c q (-1) [] true none :=
    unindentTo_of_le (Int.le_refl _)
  refine ⟨c, q₁, i₁, is₁, hrun, hrest, hcolumn, ?_⟩
  rw [← hsame, unindentTo_unindentTo hground (Int.le_refl _) (by decide),
    hends (-1) (Int.le_refl _) (Int.le_refl _), hall]

/-- The marker of a document. -/
theorem step_marker (hrest : c.rest = '-' :: '-' :: '-' :: '\n' :: rest) (hcolumn : c.column = 0)
    (hground : (flat c q i is true none).unindentTo (-1) = flat c queue (-1) [] true none)
    (hhead : ∀ x ∈ rest.head?, startsToken x = true) :
    ∃ c', Step (flat c q i is true none) (flat c' (queue ++ [.documentStart]) (-1) [] true none) ∧
      c'.rest = rest ∧ c'.column = 0 := by
  have hcursor : (flat c q i is true none).cursor = c := rfl
  -- three dashes at the start of a line, with a blank behind them
  have hmarker : c.atMarker '-' = true := by
    simp [Cursor.atMarker, Cursor.startsWith, Cursor.blankAfter, hrest, hcolumn, isBreak]
  have hput : (flat c q i is true none).putMarker .documentStart =
      .ok (flat (c.skip 3) (queue ++ [.documentStart]) (-1) [] false none) := by
    rw [putMarker, hground]
    simp [dropKey, flat, putSkip, put]
  have hproduce : (flat c q i is true none).produceHere =
      .ok (flat (c.skip 3) (queue ++ [.documentStart]) (-1) [] false none) := by
    simpa [produceHere, hcursor, hrest, hmarker] using hput
  have hrest' := Cursor.rest_skip (a := ['-', '-', '-']) hrest
  obtain ⟨c', happroach, hbelow⟩ := @approach_newline (c.skip 3) (queue ++ [.documentStart]) (-1) [] false none
    0 rest hrest' hhead (by simp [GoesBefore])
  rw [unindentTo_of_le (by simp [flat])] at happroach
  have hless : (c.skip 3).left < c.left :=
    Cursor.left_lt_of_rest (hrest.trans (congrArg (['-', '-', '-'] ++ ·) hrest'.symm)) (by simp)
  exact ⟨c', step_flat hproduce happroach hless, hbelow.rest_eq, hbelow.column_eq⟩

/-- The end of the text. -/
theorem produceHere_end (hrest : c.rest = []) (hcolumn : c.column = 0)
    (hground : (flat c q i is true none).unindentTo (-1) = flat c queue (-1) [] true none) :
    (flat c q i is true none).produceHere = .ok (flat c (queue ++ [.streamEnd]) (-1) [] false none) := by
  have hcursor : (flat c q i is true none).cursor = c := rfl
  have hput : (flat c q i is true none).putEnd = .ok (flat c (queue ++ [.streamEnd]) (-1) [] false none) := by
    rw [putEnd, hcursor, if_pos hcolumn, hground]
    rfl
  rw [produceHere, hcursor, hrest]
  exact hput

/-- The value of a document. -/
theorem scans_document (value : Tree) (hrest : c.rest = write value ++ rest) (hcolumn : c.column = 0)
    (hfollows : Follows (-1) 0 rest) :
    Scans (flat c q (-1) [] true none) (-1) [] (q ++ tokensOf value) 0 rest :=
  (scans value).1 hcolumn hrest (by decide) (List.mem_singleton_self _) hfollows

/-- From behind a document to the end of the text. -/
theorem runs_documents (values : List Tree) {a : TokenStream}
    (h : Scans a (-1) [] q 0 (documentsBehind values)) :
    ∃ b f, Runs a b ∧ b.faulty = none ∧ b.produceHere = .ok f ∧ f.Finished ∧ f.faulty = none ∧
      f.queue = q ++ documentTokens values := by
  -- the tokens read so far grow with each document, so the queue and the first state vary
  induction values generalizing q a with
  | nil =>
    obtain ⟨c, q', i, is, hrun, hrest, hcolumn, hground⟩ := h.ground
    exact ⟨_, _, hrun, rfl, produceHere_end hrest hcolumn hground, ⟨rfl, rfl, rfl⟩, rfl, rfl⟩
  | cons value more ih =>
    obtain ⟨c, q', i, is, hrun, hrest, hcolumn, hground⟩ := h.ground
    obtain ⟨c', hstep, hc', hcolumn'⟩ := step_marker hrest hcolumn hground
      ((startsToken_writeHere 0 2 value).append _)
    have hscans := scans_document value (q := q ++ [.documentStart]) hc' hcolumn'
      (follows_documentsBehind more)
    obtain ⟨b, f, hrun', hb, hend, hfinished, hfaulty, hqueue⟩ := ih hscans
    exact ⟨b, f, hrun.trans (.head hstep hrun'), hb, hend, hfinished, hfaulty,
      by rw [hqueue, documentTokens]; simp⟩

/-- The text of documents has the tokens of its values, with a marker in front of each but the first. -/
theorem yields_writeYaml (value : Tree) (more : List Tree) :
    Yields (tokensOf value ++ documentTokens more) (.start (Document.writeYaml (value :: more))) := by
  rw [writeYaml_cons]
  have hprint := (allPrintable_write value).append (allPrintable_documentsBehind more)
  have hstart : TokenStream.start (write value ++ documentsBehind more) =
      flat (.start (write value ++ documentsBehind more)) [] (-1) [] true none := by
    rw [TokenStream.start, faultyBlock?_eq_none hprint]
    rfl
  have happroach := @approach_spaces (.start (write value ++ documentsBehind more)) [] (-1) [] true none 0
    (write value ++ documentsBehind more) none rfl ((startsToken_writeHere 0 2 value).append _) rfl
  rw [Cursor.skip_zero, unindentTo_of_le (by simp [flat, Cursor.start])] at happroach
  have hscans := @scans_document (.start (write value ++ documentsBehind more)) [] _ value rfl rfl
    (follows_documentsBehind more)
  obtain ⟨b, f, hrun, hb, hend, hfinished, hfaulty, hqueue⟩ := runs_documents more hscans
  obtain ⟨n, -, hproduces⟩ := exists_produces hrun hb hend hfinished hfaulty happroach sound_flat
  rw [hqueue, List.nil_append] at hproduces
  rw [hstart]
  exact yields_of_produces hproduces

end PartialResponse.Yaml
