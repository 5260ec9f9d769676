import PartialResponse.Proofs.Yaml.Quoted

/-!
# PartialResponse.Proofs.Yaml.Literal — literal blocks read back

A literal block is taken apart into its lines. A text with anything but line breaks
in it is some line breaks, then lines with line breaks between them, then line
breaks again, and the header says how many of the last ones count.
-/

namespace PartialResponse.Yaml

variable {c : Cursor} {rounds indent n : Nat} {b : Char} {bs t rest done leading trailing : List Char}

/-! ## Lines of a text -/

/-- Whether all characters end lines and can be printed. -/
def AllBreaks (bs : List Char) : Prop :=
  ∀ x ∈ bs, isPrintable x = true ∧ isBreak x = true

/-- Whether no character ends a line, and all can be printed. -/
def NoBreaks (line : List Char) : Prop :=
  ∀ x ∈ line, isPrintable x = true ∧ isBreak x = false

/-- Lines that are not empty, with line breaks between them. -/
inductive Lines : List Char → Prop
  | last {line : List Char} (hne : line ≠ []) (hline : NoBreaks line) : Lines line
  | more {line bs body : List Char} {b : Char} (hne : line ≠ []) (hline : NoBreaks line)
      (hbreaks : AllBreaks (b :: bs)) (hbody : Lines body) : Lines (line ++ b :: (bs ++ body))

/-- A character in front of lines makes the first of them longer. -/
theorem Lines.cons {body : List Char} {x : Char} (hprint : isPrintable x = true)
    (hbreak : isBreak x = false) (h : Lines body) : Lines (x :: body) := by
  cases h with
  | last hne hline => exact .last (by simp) (List.forall_mem_cons.2 ⟨⟨hprint, hbreak⟩, hline⟩)
  | @more line bs body b hne hline hbreaks hbody =>
    exact @Lines.more (x :: line) bs body b (by simp)
      (List.forall_mem_cons.2 ⟨⟨hprint, hbreak⟩, hline⟩) hbreaks hbody

/-- Lines start and end with a character that ends no line, so line breaks around them can be told
from those between them. -/
theorem Lines.ends {body : List Char} (h : Lines body) :
    (∃ x more, body = x :: more ∧ isPrintable x = true ∧ isBreak x = false) ∧
      ∃ front x, body = front ++ [x] ∧ isBreak x = false := by
  induction h with
  -- a single line has a first and a last character, which may be the same
  | @last line hne hline =>
    obtain ⟨x, more, rfl⟩ := List.exists_cons_of_ne_nil hne
    refine ⟨⟨x, more, rfl, hline x (by simp)⟩, (x :: more).dropLast, (x :: more).getLast hne, ?_, ?_⟩
    · exact (List.dropLast_append_getLast hne).symm
    · exact (hline _ (List.getLast_mem hne)).2
  | @more line bs body b hne hline hbreaks hbody ih =>
    obtain ⟨x, more, rfl⟩ := List.exists_cons_of_ne_nil hne
    obtain ⟨-, front, y, rfl, hy⟩ := ih
    exact ⟨⟨x, _, rfl, hline x (by simp)⟩, x :: more ++ b :: (bs ++ front), y, by simp, hy⟩

/-- A text that can be printed has only line breaks, or lines with line breaks around them. -/
theorem exists_lines (hprint : ∀ x ∈ t, isPrintable x = true) :
    AllBreaks t ∨ ∃ lead body bs, t = lead ++ (body ++ bs) ∧ AllBreaks lead ∧ Lines body ∧
      AllBreaks bs := by
  induction t with
  | nil => exact .inl (by simp [AllBreaks])
  | cons x t ih =>
    obtain ⟨hx, ht⟩ := List.forall_mem_cons.1 hprint
    cases hbreak : isBreak x with
    | true =>
      refine (ih ht).imp (fun h => List.forall_mem_cons.2 ⟨⟨hx, hbreak⟩, h⟩) ?_
      rintro ⟨lead, body, bs, rfl, hlead, hbody, hbs⟩
      exact ⟨x :: lead, body, bs, rfl, List.forall_mem_cons.2 ⟨⟨hx, hbreak⟩, hlead⟩, hbody, hbs⟩
    | false =>
      have hone : NoBreaks [x] := by simpa [NoBreaks] using ⟨hx, hbreak⟩
      refine .inr ?_
      -- the character is a line of its own, belongs to the first line, or is the line in front of it
      rcases ih ht with hall | ⟨lead, body, bs, rfl, hlead, hbody, hbs⟩
      · exact ⟨[], [x], t, rfl, by simp [AllBreaks], .last (by simp) hone, hall⟩
      · cases lead with
        | nil => exact ⟨[], x :: body, bs, rfl, hlead, hbody.cons hx hbreak, hbs⟩
        | cons b lead =>
          exact ⟨[], [x] ++ b :: (lead ++ body), bs, by simp, by simp [AllBreaks],
            .more (by simp) hone hlead hbody, hbs⟩

/-! ## Writing lines -/

/-- A character as it is. -/
def asIs (x : Char) : List Char := [x]

/-- In the middle of a line nothing is added. -/
theorem writeLines_line {line : List Char} (hline : NoBreaks line) :
    writeLines indent asIs false (line ++ t) = line ++ writeLines indent asIs false t := by
  induction line with
  | nil => rfl
  | cons x line ih =>
    obtain ⟨hx, hline⟩ := List.forall_mem_cons.1 hline
    simp [writeLines, hx.2, asIs, ih hline]

/-- Empty lines are not indented. -/
theorem writeLines_breaks (hbs : AllBreaks bs) :
    writeLines indent asIs true (bs ++ t) = bs ++ writeLines indent asIs true t := by
  induction bs with
  | nil => rfl
  | cons x bs ih =>
    obtain ⟨hx, hbs⟩ := List.forall_mem_cons.1 hbs
    simp [writeLines, hx.2, ih hbs]

theorem writeLines_break {fresh : Bool} (hb : isBreak b = true) :
    writeLines indent asIs fresh (b :: t) = b :: writeLines indent asIs true t := by
  simp [writeLines, hb]

/-- The first line behind a line break is indented. -/
theorem writeLines_fresh {body : List Char} (hbody : Lines body) :
    writeLines indent asIs true (body ++ t) =
      List.replicate indent ' ' ++ writeLines indent asIs false (body ++ t) := by
  obtain ⟨⟨x, more, rfl, -, hx⟩, -⟩ := hbody.ends
  simp [writeLines, hx]

theorem writeLines_breaks_end (hbs : AllBreaks bs) :
    writeLines indent asIs true bs = bs := by
  simpa [writeLines] using @writeLines_breaks indent _ [] hbs

/-! ## Empty lines -/

theorem ne_tab_of_not_isBlank {x : Char} (h : isBlank x = false) : x ≠ '\t' := by
  rintro rfl
  exact absurd h (by decide)

/-- Spaces that stand in front of other spaces are counted with them. -/
theorem length_takeWhile_spaces {k : Nat} (h : c.rest = List.replicate k ' ' ++ rest) :
    (c.rest.takeWhile (· == ' ')).length = k + (rest.takeWhile (· == ' ')).length := by
  rw [h, List.takeWhile_append_of_pos (by simp), List.length_append, List.length_replicate]

/-- Empty lines, and the indentation of the next line. -/
theorem readBlockBreaks_given {k widest : Nat} (hcolumn : c.column = 0) (hbs : AllBreaks bs)
    (hrest : c.rest = bs ++ (List.replicate k ' ' ++ rest))
    (hhead : ∀ x ∈ rest.head?, isBreak x = false ∧ x ≠ '\t') (hk : k ≤ indent)
    (hstop : k = indent ∨ rest.head? ≠ some ' ') (hrounds : bs.length < rounds) :
    ∃ widest' c', readBlockBreaks (some indent) rounds c done widest =
        .ok (bs.reverse ++ done, widest', c') ∧
      c'.rest = rest ∧ c'.column = k ∧ c.line ≤ c'.line := by
  induction bs generalizing c done widest rounds with
  | nil =>
    obtain ⟨rounds, rfl⟩ := Nat.exists_eq_succ_of_ne_zero (Nat.ne_zero_of_lt hrounds)
    rw [List.nil_append] at hrest
    have hwidth := length_takeWhile_spaces hrest
    -- the loop skips spaces up to the indentation: here all of them, since either the indentation
    -- is reached or the text goes on with something else
    have hskip : min (c.rest.takeWhile (· == ' ')).length (indent - c.column) = k := by
      rw [hwidth, hcolumn]
      rcases hstop with rfl | hstop
      · omega
      · have hnone : rest.takeWhile (· == ' ') = [] :=
          Cursor.takeWhile_of_head fun x hx => beq_eq_false_iff_ne.2 fun hspace => hstop (hspace ▸ hx)
        simp [hnone, hk]
    have hrest' := Cursor.rest_skip hrest
    have hcolumn' := Cursor.column_skip hrest
    rw [List.length_replicate] at hrest' hcolumn'
    have htab : (c.skip k).at? '\t' = false := Cursor.at?_eq_false fun x hx => (hhead x (hrest' ▸ hx)).2
    have hbreak : (c.skip k).nextIs isBreak = false :=
      Cursor.nextIs_of_head fun x hx => (hhead x (hrest' ▸ hx)).1
    refine ⟨max widest (c.skip k).column, c.skip k, ?_, hrest', by omega, Nat.le_refl _⟩
    simp [readBlockBreaks, hskip, htab, hbreak]
  | cons b bs ih =>
    obtain ⟨rounds, rfl⟩ := Nat.exists_eq_succ_of_ne_zero (Nat.ne_zero_of_lt hrounds)
    obtain ⟨⟨hprint, hb⟩, hbs⟩ := List.forall_mem_cons.1 hbs
    -- a line break is no space and no tab, so the loop takes it in as an empty line
    have hspace : b ≠ ' ' := by
      rintro rfl
      exact absurd hb (by decide)
    have htab : b ≠ '\t' := by
      rintro rfl
      exact absurd hb (by decide)
    obtain ⟨hbreakText, hr⟩ := breakText_eq hrest hprint hb
    obtain ⟨hrest', hline, hcolumn'⟩ := Cursor.skipBreak_eq hrest hb hr
    obtain ⟨widest', c', hread, hc', hk', hline'⟩ :=
      @ih _ rounds (b :: done) (max widest 0) hcolumn' hbs hrest' (by simpa using hrounds)
    refine ⟨widest', c', ?_, hc', hk', by omega⟩
    have hwidth : (c.rest.takeWhile (· == ' ')).length = 0 := by simp [hrest, hspace]
    have hat : c.at? '\t' = false := by simp [Cursor.at?, hrest, htab]
    have hbreak : c.nextIs isBreak = true := by simp [Cursor.nextIs, hrest, hb]
    simpa [readBlockBreaks, hwidth, Cursor.skip_zero, hat, hbreak, hbreakText, hcolumn] using hread

/-- The indentation of a first line that shows it. -/
theorem readBlockBreaks_shown {widest : Nat} (hcolumn : c.column = 0)
    (hrest : c.rest = List.replicate indent ' ' ++ rest)
    (hhead : ∀ x ∈ rest.head?, isBreak x = false ∧ isBlank x = false) :
    readBlockBreaks none (rounds + 1) c done widest =
      .ok (done, max widest indent, c.skip indent) := by
  -- no blank follows the spaces, so their number is the indentation
  have hnone : rest.takeWhile (· == ' ') = [] := by
    refine Cursor.takeWhile_of_head fun x hx => beq_eq_false_iff_ne.2 ?_
    rintro rfl
    exact absurd (hhead ' ' hx).2 (by decide)
  have hwidth : (c.rest.takeWhile (· == ' ')).length = indent := by
    rw [length_takeWhile_spaces hrest, hnone, List.length_nil, Nat.add_zero]
  have hrest' := Cursor.rest_skip hrest
  have hcolumn' := Cursor.column_skip hrest
  rw [List.length_replicate] at hrest' hcolumn'
  have htab : (c.skip indent).at? '\t' = false :=
    Cursor.at?_eq_false fun x hx => ne_tab_of_not_isBlank (hhead x (hrest' ▸ hx)).2
  have hbreak : (c.skip indent).nextIs isBreak = false :=
    Cursor.nextIs_of_head fun x hx => (hhead x (hrest' ▸ hx)).1
  simp [readBlockBreaks, hwidth, htab, hbreak, hcolumn', hcolumn]

/-! ## Lines of a block -/

/-- A line that is not indented like the block ends it. -/
theorem readBlockLines_stop {blank : Bool} (h : c.column ≠ indent) :
    readBlockLines true indent rounds c leading trailing blank done =
      .ok (done, leading, trailing, c) := by
  cases rounds with
  | zero => rfl
  | succ rounds => simp [readBlockLines, h]

/-- One line, its line break and the empty lines behind it. -/
theorem readBlockLines_line {blank : Bool} {line more : List Char} {k : Nat}
    (hcolumn : c.column = indent) (hne : line ≠ []) (hline : NoBreaks line)
    (hbs : AllBreaks (b :: bs))
    (hrest : c.rest = line ++ b :: (bs ++ (List.replicate k ' ' ++ more)))
    (hhead : ∀ x ∈ more.head?, isBreak x = false ∧ x ≠ '\t') (hk : k ≤ indent)
    (hstop : k = indent ∨ more.head? ≠ some ' ') (hrounds : c.left < rounds + 1) :
    ∃ c' blank', readBlockLines true indent (rounds + 1) c leading trailing blank done =
        readBlockLines true indent rounds c' [b] bs.reverse blank'
          (line.reverse ++ (trailing ++ (leading ++ done))) ∧
      c'.rest = more ∧ c'.column = k ∧ c.line < c'.line ∧ c'.left < c.left := by
  obtain ⟨⟨hprint, hb⟩, hbs'⟩ := List.forall_mem_cons.1 hbs
  have hafter := Cursor.rest_skip hrest
  obtain ⟨hbreakText, hr⟩ := breakText_eq hafter hprint hb
  obtain ⟨hrest', hline', hcolumn'⟩ := Cursor.skipBreak_eq hafter hb hr
  -- the line ends at the first line break, which starts the empty lines
  have htake : c.rest.takeWhile (!isBreak ·) = line := by
    rw [hrest, List.takeWhile_append_of_pos (by simpa using fun x hx => (hline x hx).2)]
    simp [hb]
  have hleft : c.left = line.length + (1 + (bs.length + (k + more.length))) := by
    simp [c.left_eq, hrest]
    omega
  obtain ⟨widest, c', hread, hc', hk', hline''⟩ := @readBlockBreaks_given _ (rounds + 1) indent bs more []
    k 0 hcolumn' hbs' hrest' hhead hk hstop (by omega)
  have hend : c.atEnd = false := by
    obtain ⟨x, line, rfl⟩ := List.exists_cons_of_ne_nil hne
    simp [Cursor.atEnd, hrest]
  refine ⟨c', c.nextIs isBlank, ?_, hc', hk', ?_, ?_⟩
  · rw [readBlockLines]
    simp [hcolumn, hend, htake, hread, hbreakText]
  · rw [Cursor.line_skip] at hline'
    omega
  · rw [c'.left_eq, hc', hleft]
    omega

/-- The lines of a block are read up to a line that is indented less, and the line breaks at their
end are handed over apart. -/
theorem readBlockLines_lines {blank : Bool} {body : List Char} (hbody : Lines body)
    (hcolumn : c.column = indent) (hbs : AllBreaks (b :: bs))
    (hrest : c.rest = writeLines indent asIs false (body ++ b :: bs) ++ (List.replicate n ' ' ++ rest))
    (hhead : ∀ x ∈ rest.head?, isBreak x = false ∧ isBlank x = false) (hn : n < indent)
    (hrounds : c.left < rounds) :
    ∃ c', readBlockLines true indent rounds c leading trailing blank done =
        .ok (body.reverse ++ (trailing ++ (leading ++ done)), [b], bs.reverse, c') ∧
      c.Below n rest c' := by
  have hb := (List.forall_mem_cons.1 hbs).1.2
  -- line by line; what is left over from one line is the line break behind it and the empty lines
  induction hbody generalizing c leading trailing blank done rounds with
  | @last line hne hline =>
    obtain ⟨rounds, rfl⟩ := Nat.exists_eq_succ_of_ne_zero (Nat.ne_zero_of_lt hrounds)
    rw [writeLines_line hline, writeLines_break hb,
      writeLines_breaks_end (List.forall_mem_cons.1 hbs).2, List.append_assoc, List.cons_append] at hrest
    have hhead' : ∀ x ∈ rest.head?, isBreak x = false ∧ x ≠ '\t' :=
      fun x hx => ⟨(hhead x hx).1, ne_tab_of_not_isBlank (hhead x hx).2⟩
    have hspace : rest.head? ≠ some ' ' := fun hx => absurd (hhead ' ' hx).2 (by decide)
    obtain ⟨c', blank', hread, hc', hk, hless, -⟩ := @readBlockLines_line c rounds indent b bs done leading
      trailing blank line rest n hcolumn hne hline hbs hrest hhead' (by omega) (.inr hspace) hrounds
    refine ⟨c', ?_, hc', hk, hless⟩
    rw [Nat.succ_eq_add_one, hread, readBlockLines_stop (by omega)]
  | @more line bs₁ body b₁ hne hline hbreaks hbody ih =>
    obtain ⟨rounds, rfl⟩ := Nat.exists_eq_succ_of_ne_zero (Nat.ne_zero_of_lt hrounds)
    obtain ⟨hb₁, hbs₁⟩ := List.forall_mem_cons.1 hbreaks
    -- what is written behind the line starts with its line break, and the line behind the empty
    -- ones is indented
    have hwritten : writeLines indent asIs false (line ++ b₁ :: (bs₁ ++ body) ++ b :: bs) =
        line ++ b₁ :: (bs₁ ++ (List.replicate indent ' ' ++
          writeLines indent asIs false (body ++ b :: bs))) := by
      rw [List.append_assoc, writeLines_line hline, List.cons_append, writeLines_break hb₁.2,
        List.append_assoc, writeLines_breaks hbs₁, writeLines_fresh hbody]
    rw [hwritten] at hrest
    simp only [List.append_assoc, List.cons_append] at hrest
    have hhead' : ∀ x ∈ (writeLines indent asIs false (body ++ b :: bs) ++
        (List.replicate n ' ' ++ rest)).head?, isBreak x = false ∧ x ≠ '\t' := by
      obtain ⟨⟨y, more, rfl, hprint, hy⟩, -⟩ := hbody.ends
      have htab : y ≠ '\t' := by
        rintro rfl
        exact absurd hprint (by decide)
      simp [writeLines, hy, asIs, htab]
    obtain ⟨c', blank', hread, hc', hk, hless, hleft⟩ := @readBlockLines_line c rounds indent b₁ bs₁ done
      leading trailing blank line _ indent hcolumn hne hline hbreaks hrest hhead' (Nat.le_refl _) (.inl rfl)
      hrounds
    obtain ⟨c'', hread', hbelow⟩ := @ih c' rounds (line.reverse ++ (trailing ++ (leading ++ done))) [b₁]
      bs₁.reverse blank' hk hc' (by omega)
    refine ⟨c'', ?_, hbelow.rest_eq, hbelow.column_eq, Nat.lt_trans hless hbelow.line_lt⟩
    rw [Nat.succ_eq_add_one, hread, hread']
    simp

/-! ## The header -/

/-- What a header says. -/
inductive Header : List Char → Chomping → Option Nat → Prop
  | clip : Header [] .clip none
  | strip : Header ['-'] .strip none
  | keep : Header ['+'] .keep none
  | clipGiven : Header ['2'] .clip (some 2)
  | stripGiven : Header ['2', '-'] .strip (some 2)
  | keepGiven : Header ['2', '+'] .keep (some 2)

/-- Every header that is written is read as what it says. -/
theorem readBlockHeader_eq {header : List Char} {chomping : Chomping} {width : Option Nat}
    (h : Header header chomping width) (hrest : c.rest = header ++ '\n' :: rest) :
    readBlockHeader c = .ok (chomping, width, c.skip header.length) := by
  have hnewline : (some '\n').filter Char.isDigit = none := rfl
  have hdigit : (some '2').filter Char.isDigit = some '2' := rfl
  cases h
  all_goals
    -- each of the six headers is a closed text
    simp only [List.nil_append, List.cons_append] at hrest
    simp [readBlockHeader, Cursor.at?, hrest, Cursor.rest_skip_one hrest, Cursor.skip_zero,
      Cursor.skip_skip, hnewline, hdigit]

/-- The part of a header that gives the indentation. -/
def widthMark (given : Bool) : List Char :=
  if given then ['2'] else []

/-- The width of the indentation can be put in front of any mark. -/
theorem header_of_mark {mark : List Char} {chomping : Chomping} (given : Bool)
    (h : Header mark chomping none) :
    Header (widthMark given ++ mark) chomping (if given then some 2 else none) := by
  cases given <;> cases h <;> constructor

/-- What becomes of the line breaks at the end of a block. -/
def chomped (chomping : Chomping) (leading trailing : List Char) : List Char :=
  match chomping with
  | .strip => []
  | .clip => leading
  | .keep => trailing ++ leading

/-- The last line break that the lines of a text lack, if they lack one. -/
def missingBreak (t : List Char) : List Char :=
  if t.getLast?.any isBreak then [] else ['\n']

/-- Whether a line break is missing can be seen at the last character. -/
theorem missingBreak_of_reverse {x : Char} {more : List Char} (h : t.reverse = x :: more) :
    missingBreak t = if isBreak x then [] else ['\n'] := by
  have hlast : t.getLast? = some x := by rw [← List.head?_reverse, h, List.head?_cons]
  simp [missingBreak, hlast]

/-- A text that does not end in a line break has the one of its last line taken off. -/
theorem chompingMark_of_not_break {x : Char} {more : List Char} (h : t.reverse = x :: more)
    (hx : isBreak x = false) : chompingMark t = ['-'] := by
  cases more <;> simp [chompingMark, h, hx]

/-- Of a text that ends in a line break, the character in front of it decides whether there are more
to keep. -/
theorem chompingMark_of_break {x y : Char} {more : List Char} (h : t.reverse = x :: y :: more)
    (hx : isBreak x = true) : chompingMark t = if isBreak y then ['+'] else [] := by
  simp [chompingMark, h, hx]

/-- What the header of a block with lines says about the line breaks at the end. -/
theorem chompingMark_lines {lead body : List Char} (hbody : Lines body) (hbs : AllBreaks bs) :
    ∃ chomping b more, Header (chompingMark (lead ++ (body ++ bs))) chomping none ∧
      AllBreaks (b :: more) ∧
      lead ++ (body ++ bs) ++ missingBreak (lead ++ (body ++ bs)) = lead ++ (body ++ b :: more) ∧
      bs.reverse = chomped chomping [b] more.reverse := by
  obtain ⟨-, front, x, rfl, hx⟩ := hbody.ends
  cases bs with
  | nil =>
    -- no line break at the end: one is missing, and it does not count
    have hreverse : (lead ++ (front ++ [x] ++ [])).reverse = x :: (front.reverse ++ lead.reverse) := by
      simp
    refine ⟨.strip, '\n', [], ?_, by simp [AllBreaks, isPrintable, isBreak], ?_, rfl⟩
    · rw [chompingMark_of_not_break hreverse hx]
      exact .strip
    · rw [missingBreak_of_reverse hreverse, hx]
      simp
  | cons b more =>
    have hb := (List.forall_mem_cons.1 hbs).1.2
    rcases List.eq_nil_or_concat' more with rfl | ⟨more, z, rfl⟩
    · have hreverse : (lead ++ (front ++ [x] ++ [b])).reverse =
          b :: x :: (front.reverse ++ lead.reverse) := by simp
      refine ⟨.clip, b, [], ?_, hbs, ?_, rfl⟩
      · rw [chompingMark_of_break hreverse hb, hx]
        exact .clip
      · rw [missingBreak_of_reverse hreverse, hb]
        simp
    · -- two line breaks at the end, of which the second last may be the first one
      obtain ⟨y, others, hy⟩ : ∃ y others, (b :: more).reverse = y :: others :=
        List.exists_cons_of_ne_nil (by simp)
      have hbreak : isBreak y = true := (hbs y (by
        have hmem : y ∈ (b :: more).reverse := by simp [hy]
        have hmem' := List.mem_reverse.1 hmem
        simp only [List.mem_cons, List.mem_append] at hmem' ⊢
        tauto)).2
      have hz : isBreak z = true := (hbs z (by simp)).2
      have hreverse : (lead ++ (front ++ [x] ++ b :: (more ++ [z]))).reverse =
          z :: y :: (others ++ x :: (front.reverse ++ lead.reverse)) := by
        rw [← List.cons_append, ← List.cons_append, ← hy]
        simp
      refine ⟨.keep, b, more ++ [z], ?_, hbs, ?_, by simp [chomped]⟩
      · rw [chompingMark_of_break hreverse hz, hbreak]
        exact .keep
      · rw [missingBreak_of_reverse hreverse, hz]
        simp

/-- What the header of a block without lines says about the line breaks at the end. -/
theorem chompingMark_breaks (hbs : AllBreaks bs) (hne : bs ≠ []) :
    Header (chompingMark bs) .keep none ∧ missingBreak bs = [] := by
  obtain ⟨x, more, hreverse⟩ : ∃ x more, bs.reverse = x :: more :=
    List.exists_cons_of_ne_nil (by simpa using hne)
  have hall : ∀ y ∈ x :: more, isBreak y = true := by
    rw [← hreverse]
    exact fun y hy => (hbs y (List.mem_reverse.1 hy)).2
  have hx := (List.forall_mem_cons.1 hall).1
  refine ⟨?_, by simp [missingBreak_of_reverse hreverse, hx]⟩
  cases more with
  | nil =>
    have hmark : chompingMark bs = ['+'] := by simp [chompingMark, hreverse, hx]
    exact hmark ▸ .keep
  | cons y more =>
    have hy : isBreak y = true := hall y (by simp)
    rw [chompingMark_of_break hreverse hx, hy]
    exact .keep

/-! ## The whole block -/

/-- Indentation stands in front of lines, so it does not change how a text ends. -/
theorem getLast?_writeLines (fresh : Bool) (t : List Char) :
    (writeLines indent asIs fresh t).getLast? = t.getLast? := by
  induction t generalizing fresh with
  | nil => rfl
  | cons x t ih =>
    rw [writeLines]
    split
    · rw [List.getLast?_cons, ih, List.getLast?_cons]
    · simp [List.getLast?_append, List.getLast?_cons, ih, asIs]

theorem writeLines_append_newline (fresh : Bool) (t : List Char) :
    writeLines indent asIs fresh (t ++ ['\n']) = writeLines indent asIs fresh t ++ ['\n'] := by
  induction t generalizing fresh with
  | nil => simp [writeLines, isBreak]
  | cons x t ih =>
    rw [List.cons_append, writeLines, writeLines, ih, ih]
    split <;> simp

/-- The missing line break may as well be written with the lines. -/
theorem writeLines_missingBreak (t : List Char) :
    writeLines indent asIs true t ++ missingBreak t = writeLines indent asIs true (t ++ missingBreak t) := by
  unfold missingBreak
  split
  · simp
  · exact (writeLines_append_newline true t).symm

/-- The parts of a block put together, of which the header comes first. -/
theorem readBlock_eq {outer : Int} {header breaks text : List Char} {chomping : Chomping}
    {width : Option Nat} {widest : Nat} {d d' c' : Cursor} (hheader : Header header chomping width)
    (hrest : c.rest = header ++ '\n' :: rest) (hd : d = (c.skip header.length).skipBreak)
    (hbreaks : readBlockBreaks (width.map fun n => if 0 ≤ outer then outer.toNat + n else n) (d.left + 1) d
      [] 0 = .ok (breaks, widest, d'))
    (hindent : (width.map fun n => if 0 ≤ outer then outer.toNat + n else n).getD
      (max (max widest (outer + 1).toNat) 1) = indent)
    (hlines : readBlockLines true indent (d.left + 1) d' [] breaks false [] =
      .ok (text, leading, trailing, c')) :
    readBlock true outer c = .ok ((chomped chomping leading trailing ++ text).reverse, c') := by
  have hrest' := Cursor.rest_skip hrest
  have hblank : (c.skip header.length).skipWhile isBlank = c.skip header.length :=
    Cursor.skipWhile_of_head (by simpa [hrest'] using by decide)
  have hcomment : (c.skip header.length).skipComment = c.skip header.length :=
    Cursor.skipComment_eq (by simp [hrest'])
  have hend : (c.skip header.length).atLineEnd = true := by
    simp [Cursor.atLineEnd, Cursor.nextIs, hrest', isBreak]
  rw [readBlock, readBlockHeader_eq hheader hrest, ok_bind]
  simp only [hblank, hcomment, hend, Bool.not_true, Bool.false_eq_true, if_false, ← hd, hbreaks,
    ok_bind, hindent, hlines]
  cases chomping <;> rfl

/-- Whether the first line of a text does not show how the block is indented. -/
def hidesIndent (t : List Char) : Bool :=
  t.head?.any fun x => x == ' ' || isBreak x

/-- The indentation of a block of lines, which the header gives if the first line does not show it. -/
theorem readBlockBreaks_lead {outer : Int} {lead body more : List Char} (hlead : AllBreaks lead)
    (hbody : Lines body) (hindent : indent = outer.toNat + 2) (hcolumn : c.column = 0)
    (hrest : c.rest = lead ++ (List.replicate indent ' ' ++
      (writeLines indent asIs false (body ++ t) ++ rest))) :
    ∃ widest c', readBlockBreaks ((if hidesIndent (lead ++ (body ++ more)) then some 2 else none).map
          fun n => if 0 ≤ outer then outer.toNat + n else n) (c.left + 1) c [] 0 =
        .ok (lead.reverse, widest, c') ∧
      ((if hidesIndent (lead ++ (body ++ more)) then some 2 else none).map
          fun n => if 0 ≤ outer then outer.toNat + n else n).getD
        (max (max widest (outer + 1).toNat) 1) = indent ∧
      c'.rest = writeLines indent asIs false (body ++ t) ++ rest ∧ c'.column = indent ∧
      c.line ≤ c'.line := by
  have hgiven : (if 0 ≤ outer then outer.toNat + 2 else 2) = indent := by
    split <;> omega
  obtain ⟨⟨x, others, rfl, hprint, hx⟩, -⟩ := hbody.ends
  have hfirst : (writeLines indent asIs false (x :: others ++ t) ++ rest).head? = some x := by
    simp [writeLines, hx, asIs]
  generalize writeLines indent asIs false (x :: others ++ t) ++ rest = written at hrest hfirst
  cases hhides : hidesIndent (lead ++ (x :: others ++ more)) with
  | true =>
    have htab : x ≠ '\t' := by
      rintro rfl
      exact absurd hprint (by decide)
    obtain ⟨widest, c', hread, hc', hcolumn', hline⟩ := @readBlockBreaks_given c (c.left + 1) indent lead
      _ [] indent 0 hcolumn hlead hrest (by simpa [hfirst, hx] using htab) (Nat.le_refl _) (.inl rfl)
      (by rw [c.left_eq, hrest, List.length_append]; omega)
    exact ⟨widest, c', by simpa [hgiven] using hread, by simpa using hgiven, hc', hcolumn', hline⟩
  | false =>
    -- then the first line comes first and does not start with a space
    obtain rfl : lead = [] := by
      by_contra hne
      obtain ⟨b, lead, rfl⟩ := List.exists_cons_of_ne_nil hne
      simp [hidesIndent, (hlead b (by simp)).2] at hhides
    have hblank : isBlank x = false := by
      by_contra hblank
      obtain rfl := eq_space_of_isBlank hprint (by simpa using hblank)
      simp [hidesIndent] at hhides
    rw [List.nil_append] at hrest
    have hread := @readBlockBreaks_shown c c.left indent _ [] 0 hcolumn hrest
      (by simpa [hfirst, hx] using hblank)
    have hrest' := Cursor.rest_skip hrest
    have hcolumn' := Cursor.column_skip hrest
    rw [List.length_replicate] at hrest' hcolumn'
    refine ⟨max 0 indent, c.skip indent, by simpa using hread, ?_, hrest', by omega, Nat.le_refl _⟩
    simp only [Bool.false_eq_true, if_false, Option.map_none, Option.getD_none]
    omega

/-- The cursor behind the line of a header. -/
theorem exists_behindHeader {header : List Char} (hrest : c.rest = header ++ '\n' :: rest) :
    ∃ d, d = (c.skip header.length).skipBreak ∧ d.rest = rest ∧ d.line = c.line + 1 ∧ d.column = 0 := by
  obtain ⟨hdrest, hdline, hdcolumn⟩ := Cursor.skipBreak_eq (Cursor.rest_skip hrest) rfl (by decide)
  exact ⟨_, rfl, hdrest, by rw [hdline, Cursor.line_skip], hdcolumn⟩

section

variable {outer : Int} (hindent : indent = outer.toNat + 2) (hn : n < indent)
  (hhead : ∀ x ∈ rest.head?, isBreak x = false ∧ isBlank x = false)

include hindent hn hhead

/-- A block without lines: all line breaks are read as empty lines, and the header keeps them. -/
theorem readBlock_breaks (hne : t ≠ []) (hall : AllBreaks t)
    (hrest : c.rest = widthMark (hidesIndent t) ++ chompingMark t ++ '\n' ::
      (writeLines indent asIs true (t ++ missingBreak t) ++ (List.replicate n ' ' ++ rest))) :
    ∃ c', readBlock true outer c = .ok (t, c') ∧ c.Below n rest c' := by
  have hgiven : (if 0 ≤ outer then outer.toNat + 2 else 2) = indent := by
    split <;> omega
  have hhead' : ∀ x ∈ rest.head?, isBreak x = false ∧ x ≠ '\t' :=
    fun x hx => ⟨(hhead x hx).1, ne_tab_of_not_isBlank (hhead x hx).2⟩
  have hspace : rest.head? ≠ some ' ' := fun hx => absurd (hhead ' ' hx).2 (by decide)
  -- with no line to tell the indentation, the header gives it
  obtain ⟨hheader, hmissing⟩ := chompingMark_breaks hall hne
  have hhides : hidesIndent t = true := by
    obtain ⟨x, more, rfl⟩ := List.exists_cons_of_ne_nil hne
    simp [hidesIndent, (hall x (by simp)).2]
  obtain ⟨d, hd, hdrest, hdline, hdcolumn⟩ := exists_behindHeader hrest
  rw [hmissing, List.append_nil, writeLines_breaks_end hall] at hdrest
  have hrounds : t.length < d.left + 1 := by
    rw [d.left_eq, hdrest, List.length_append]
    omega
  -- the empty lines end where the token behind the block stands
  obtain ⟨widest, c', hbreaks, hc', hcolumn, hline⟩ := @readBlockBreaks_given _ _ indent t rest [] n 0
    hdcolumn hall hdrest hhead' (Nat.le_of_lt hn) (.inr hspace) hrounds
  rw [hhides] at hrest hd
  have hread := @readBlock_eq _ indent _ _ _ outer _ _ _ _ _ _ _ _ _ (header_of_mark true hheader) hrest
    hd (by simpa [hgiven] using hbreaks) hgiven (readBlockLines_stop (by omega))
  refine ⟨c', ?_, hc', hcolumn, by omega⟩
  simpa [chomped] using hread

/-- A block with lines, in front of which there may be empty ones, and behind which there are line
breaks. -/
theorem readBlock_lines {lead body : List Char} (hlead : AllBreaks lead) (hbody : Lines body)
    (hbs : AllBreaks bs) (ht : t = lead ++ (body ++ bs))
    (hrest : c.rest = widthMark (hidesIndent t) ++ chompingMark t ++ '\n' ::
      (writeLines indent asIs true (t ++ missingBreak t) ++ (List.replicate n ' ' ++ rest))) :
    ∃ c', readBlock true outer c = .ok (t, c') ∧ c.Below n rest c' := by
  subst ht
  obtain ⟨d, hd, hdrest, hdline, hdcolumn⟩ := exists_behindHeader hrest
  obtain ⟨chomping, b, more, hheader, hbreaks, htext, hend⟩ :=
    @chompingMark_lines _ lead _ hbody hbs
  -- only the first line has its indentation written in front of it here
  have hwritten : writeLines indent asIs true (lead ++ (body ++ b :: more)) =
      lead ++ (List.replicate indent ' ' ++ writeLines indent asIs false (body ++ b :: more)) := by
    rw [writeLines_breaks hlead, writeLines_fresh hbody]
  rw [htext, hwritten] at hdrest
  simp only [List.append_assoc] at hdrest
  obtain ⟨widest, d', hbreaks', hwidth, hd', hcolumn', hline'⟩ :=
    @readBlockBreaks_lead d indent _ _ outer lead body bs hlead hbody hindent hdcolumn hdrest
  have hless : d'.left < d.left + 1 := by
    rw [d.left_eq, d'.left_eq, hd', hdrest]
    simp only [List.length_append]
    omega
  -- the empty lines in front are handed on in reverse, as what is done
  obtain ⟨c', hlines, hbelow⟩ := @readBlockLines_lines d' (d.left + 1) indent n b more rest [] []
    lead.reverse false body hbody hcolumn' hbreaks hd' hhead hn hless
  have hread := readBlock_eq (header_of_mark _ hheader) hrest hd hbreaks' hwidth hlines
  refine ⟨c', ?_, hbelow.rest_eq, hbelow.column_eq, ?_⟩
  · rw [hread, ← hend]
    simp
  · have hlast := hbelow.line_lt
    omega

/-- A literal block reads back, from behind its indicator. -/
theorem readBlock_literal (hne : t ≠ []) (hprint : ∀ x ∈ t, isPrintable x = true)
    (hrest : c.rest = widthMark (hidesIndent t) ++ chompingMark t ++ '\n' ::
      (writeLines indent asIs true t ++ missingBreak t ++ (List.replicate n ' ' ++ rest))) :
    ∃ c', readBlock true outer c = .ok (t, c') ∧ c.Below n rest c' := by
  rw [writeLines_missingBreak] at hrest
  rcases exists_lines hprint with hall | ⟨lead, body, bs, ht, hlead, hbody, hbs⟩
  · exact readBlock_breaks hindent hn hhead hne hall hrest
  · exact readBlock_lines hindent hn hhead hlead hbody hbs ht hrest

end

end PartialResponse.Yaml
