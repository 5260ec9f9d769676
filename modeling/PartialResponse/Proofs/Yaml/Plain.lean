import PartialResponse.Proofs.Yaml.Cursor
import PartialResponse.Yaml.Printer.Text
import PartialResponse.Yaml.Token.Scalar

/-!
# PartialResponse.Proofs.Yaml.Plain — plain scalars read back

A text without marks is read as a plain scalar up to the colon behind a key, or up
to the line break behind a value. In the second case the reader goes on to the next
line before it sees that the scalar has ended, so what that line looks like matters.
-/

namespace PartialResponse.Yaml

/-! ## What comes on the next line -/

/-- The characters that a token can start with. -/
def startsToken (x : Char) : Bool :=
  !isBlank x && !isBreak x && x != '#' && x != '\ufeff'

/-- What a token cannot start with, one by one. -/
theorem startsToken_iff {x : Char} :
    startsToken x = true ↔ isBlank x = false ∧ isBreak x = false ∧ x ≠ '#' ∧ x ≠ '\ufeff' := by
  simp [startsToken, and_assoc]

/-- What can come on the line behind a value in a collection that is indented by `indent`: a token in
column `n`, which is not to the right of the collection, or the end or a start of a document. -/
structure Follows (indent : Int) (n : Nat) (rest : List Char) : Prop where
  head : ∀ x ∈ rest.head?, startsToken x = true
  ends : (n : Int) ≤ indent ∨ n = 0 ∧ (rest = [] ∨ ∃ tail, rest = '-' :: '-' :: '-' :: '\n' :: tail)

/-- What ends a collection ends those that are indented more deeply, too. -/
theorem Follows.mono {indent indent' : Int} {n : Nat} {rest : List Char} (h : Follows indent n rest)
    (hle : indent ≤ indent') : Follows indent' n rest :=
  ⟨h.head, h.ends.imp (fun hn => by omega) id⟩

namespace Cursor

/-- A cursor on a later line, in column `n`, with the given text in front of it. -/
structure Below (c : Cursor) (n : Nat) (rest : List Char) (c' : Cursor) : Prop where
  rest_eq : c'.rest = rest
  column_eq : c'.column = n
  line_lt : c.line < c'.line

/-- The end of a line and the indentation of the next one. -/
theorem below_skipBreak {c : Cursor} {n : Nat} {rest : List Char} {x : Char}
    (h : c.rest = x :: (List.replicate n ' ' ++ rest)) (hx : isBreak x = true) (hr : x ≠ '\r') :
    c.Below n rest (c.skipBreak.skip n) := by
  obtain ⟨hrest, hline, hcolumn⟩ := skipBreak_eq h hx hr
  have hskip := rest_skip hrest
  have hcolumn' := column_skip hrest
  rw [List.length_replicate] at hskip hcolumn'
  exact ⟨hskip, by rw [hcolumn', hcolumn, Nat.zero_add], by rw [line_skip, hline]; omega⟩

/-- Documents are marked at the start of a line only. -/
theorem atDocumentMarker_of_column {c : Cursor} (h : c.column ≠ 0) : c.atDocumentMarker = false := by
  simp [atDocumentMarker, atMarker, h]

/-- Behind a character the line has begun. -/
theorem column_skip_ne_zero {c : Cursor} {x : Char} {rest : List Char} (h : c.rest = x :: rest) :
    (c.skip 1).column ≠ 0 := by
  have hcolumn := column_skip (a := [x]) h
  rw [List.length_singleton] at hcolumn
  omega

/-- One character is taken. -/
theorem rest_skip_one {c : Cursor} {x : Char} {rest : List Char} (h : c.rest = x :: rest) :
    (c.skip 1).rest = rest :=
  rest_skip (a := [x]) h

end Cursor

/-! ## Inside the scalar -/

variable {c : Cursor} {indent : Int} {rounds n : Nat} {x : Char} {p done t rest : List Char}

/-- A blank is pending until it is known whether the scalar goes on behind it. -/
theorem readPlain_blank (h : c.rest = x :: rest) (hx : isBlank x = true) :
    readPlain false indent (rounds + 1) c (.blanks p) done =
      readPlain false indent rounds (c.skip 1) (.blanks (x :: p)) done := by
  rw [readPlain]
  split
  · next hrest => simp [h] at hrest
  · next hrest =>
    rw [h, List.cons.injEq] at hrest
    simp [← hrest.1, hx, Pending.hasBreak, Pending.addBlank]

/-- A character of the scalar, with the blanks that were pending in front of it. -/
theorem readPlain_char (h : c.rest = x :: rest) (hblank : isBlank x = false)
    (hbreak : isBreak x = false) (hmarker : c.atDocumentMarker = false)
    (hcomment : x = '#' → p = []) (hcolon : x = ':' → (c.skip 1).blankAfter 0 = false) :
    readPlain false indent (rounds + 1) c (.blanks p) done =
      readPlain false indent rounds (c.skip 1) (.blanks []) (x :: (p ++ done)) := by
  rw [readPlain]
  split
  · next hrest => simp [h] at hrest
  · next hrest =>
    rw [h, List.cons.injEq] at hrest
    obtain ⟨rfl, rfl⟩ := hrest
    -- a number sign behind blanks would begin a comment, and a colon in front of them end a key
    have hgoes : (decide (x = '#') && (Pending.blanks p).isSome) = false := by
      by_cases hx : x = '#'
      · simp [Pending.isSome, hcomment hx]
      · simp [hx]
    have hends : (decide (x = ':') && (c.skip 1).blankAfter 0) = false := by
      by_cases hx : x = ':'
      · simp [hcolon hx]
      · simp [hx]
    simp [hblank, hbreak, hmarker, hgoes, hends, Pending.hasBreak, Pending.folded, Pending.none]

/-- What has no marks inside has none behind its first character. -/
theorem hasInnerMark_tail (h : hasInnerMark (x :: t) = false) : hasInnerMark t = false := by
  cases t with
  | nil => rfl
  | cons y t =>
    rw [hasInnerMark, Bool.or_eq_false_iff] at h
    exact h.2

/-- No comment begins inside. -/
theorem head_ne_of_hasInnerMark (h : hasInnerMark (x :: t) = false) (hx : isBlankOrBreak x = true) :
    t.head? ≠ some '#' := by
  intro hhead
  obtain ⟨t', rfl⟩ := List.head?_eq_some_iff.1 hhead
  simp [hasInnerMark, hx] at h

/-- A colon inside does not end the text. -/
theorem blankAfter_of_hasInnerMark (h : hasInnerMark (':' :: t) = false) (hrest : c.rest = t ++ rest) :
    c.blankAfter 0 = false := by
  cases t with
  | nil => simp [hasInnerMark] at h
  | cons y t =>
    have hy : isBlankOrBreak y = false := by
      simp only [hasInnerMark, Bool.or_eq_false_iff] at h
      simpa using h.1.1
    rw [isBlankOrBreak, Bool.or_eq_false_iff] at hy
    simp [Cursor.blankAfter, hrest, hy.1]

/-- Reading a text that has no marks inside. -/
theorem readPlain_text (hbreak : ∀ x ∈ t, isBreak x = false) (hmark : hasInnerMark t = false)
    (hcomment : t.head? = some '#' → p = []) (hmarker : c.atDocumentMarker = false)
    (hrest : c.rest = t ++ rest) (hrounds : t.length ≤ rounds) :
    ∃ p' done', p' ++ done' = t.reverse ++ (p ++ done) ∧
      -- what is pending behind the text are its last blanks
      (t = [] → p' = p) ∧ (∀ x ∈ t.getLast?, isBlank x = false → p' = []) ∧
      readPlain false indent rounds c (.blanks p) done =
        readPlain false indent (rounds - t.length) (c.skip t.length) (.blanks p') done' := by
  -- the blanks that are pending may be followed by more of the text, so they are general
  induction t generalizing c p done rounds with
  | nil => exact ⟨p, done, rfl, fun _ => rfl, by simp, by simp [Cursor.skip_zero]⟩
  | cons x t ih =>
    obtain ⟨rounds, rfl⟩ : ∃ r, rounds = r + 1 := ⟨rounds - 1, by simp at hrounds; omega⟩
    have hrest' : (c.skip 1).rest = t ++ rest := Cursor.rest_skip_one hrest
    have hmarker' := Cursor.atDocumentMarker_of_column (Cursor.column_skip_ne_zero hrest)
    have hbreak' := List.forall_mem_cons.1 hbreak
    have hrounds' : t.length ≤ rounds := by simpa using hrounds
    have hlast : ∀ p' : List Char, (t = [] → isBlank x = false → p' = []) →
        (∀ y ∈ t.getLast?, isBlank y = false → p' = []) →
        ∀ y ∈ (x :: t).getLast?, isBlank y = false → p' = [] := by
      intro p' hnil hcons y hy hblank
      cases t with
      | nil =>
        obtain rfl : x = y := by simpa using hy
        exact hnil rfl hblank
      | cons z t => exact hcons y (by simpa using hy) hblank
    have hmark' := hasInnerMark_tail hmark
    have hskip : ∀ m, (c.skip 1).skip m = c.skip (m + 1) := by
      intro m
      rw [Cursor.skip_skip, Nat.add_comm]
    cases hx : isBlank x with
    | true =>
      have hcomment' : t.head? = some '#' → x :: p = [] := fun hhead =>
        absurd hhead (head_ne_of_hasInnerMark hmark (by simp [isBlankOrBreak, hx]))
      obtain ⟨p', done', happend, hnil, hcons, hread⟩ :=
        @ih _ rounds _ done hbreak'.2 hmark' hcomment' hmarker' hrest' hrounds'
      refine ⟨p', done', by simp [happend], by simp, hlast p' (by simp [hx]) hcons, ?_⟩
      rw [readPlain_blank hrest hx, hread, hskip, List.length_cons, Nat.add_sub_add_right]
    | false =>
      have hcolon : x = ':' → (c.skip 1).blankAfter 0 = false := by
        rintro rfl
        exact blankAfter_of_hasInnerMark hmark hrest'
      obtain ⟨p', done', happend, hnil, hcons, hread⟩ :=
        @ih _ rounds [] (x :: (p ++ done)) hbreak'.2 hmark' (fun _ => rfl) hmarker' hrest' hrounds'
      refine ⟨p', done', by simp [happend], by simp, hlast p' (fun h _ => hnil h) hcons, ?_⟩
      rw [readPlain_char hrest hx hbreak'.1 hmarker (fun h => hcomment (by simp [h])) hcolon, hread, hskip,
        List.length_cons, Nat.add_sub_add_right]

/-! ## Behind the scalar -/

/-- A plain scalar ends at the colon behind a key. -/
theorem readPlain_colon (h : c.rest = ':' :: rest) (hblank : (c.skip 1).blankAfter 0 = true)
    (hmarker : c.atDocumentMarker = false) (hrounds : rounds ≠ 0) :
    readPlain false indent rounds c (.blanks p) done = .ok (done.reverse, false, c) := by
  obtain ⟨rounds, rfl⟩ := Nat.exists_eq_succ_of_ne_zero hrounds
  rw [Nat.succ_eq_add_one, readPlain]
  split
  · next hrest => simp [h] at hrest
  · next hrest =>
    rw [h, List.cons.injEq] at hrest
    obtain ⟨rfl, rfl⟩ := hrest
    simp [hblank, hmarker, isBlank, isBreak, Pending.hasBreak]

/-- The indentation of the next line is passed over, since line breaks are pending. -/
theorem readPlain_spaces {first more : List Char} (h : c.rest = List.replicate n ' ' ++ rest)
    (hrounds : n ≤ rounds) :
    readPlain false indent rounds c (.breaks first more) done =
      readPlain false indent (rounds - n) (c.skip n) (.breaks first more) done := by
  induction n generalizing c rounds with
  | zero => rw [Cursor.skip_zero, Nat.sub_zero]
  | succ n ih =>
    obtain ⟨rounds, rfl⟩ : ∃ r, rounds = r + 1 := ⟨rounds - 1, by omega⟩
    rw [List.replicate_succ, List.cons_append] at h
    have hstep : readPlain false indent (rounds + 1) c (.breaks first more) done =
        readPlain false indent rounds (c.skip 1) (.breaks first more) done := by
      rw [readPlain]
      split
      · next hrest => simp [h] at hrest
      · next hrest =>
        rw [h, List.cons.injEq] at hrest
        simp [← hrest.1, isBlank, Pending.addBlank]
    rw [hstep, ih (Cursor.rest_skip_one h) (by omega), Cursor.skip_skip, Nat.add_comm 1 n,
      Nat.add_sub_add_right]

/-- A plain scalar ends on its line if the next one is not indented more deeply than the collection
around it. -/
theorem readPlain_newline (h : c.rest = '\n' :: (List.replicate n ' ' ++ rest))
    (hfollows : Follows indent n rest) (hrounds : n + 1 < rounds) :
    readPlain false (indent + 1) rounds c (.blanks p) done =
      .ok (done.reverse, true, c.skipBreak.skip n) := by
  have hbelow := Cursor.below_skipBreak h rfl (by decide)
  obtain ⟨rounds, rfl⟩ : ∃ r, rounds = r + 1 := ⟨rounds - 1, by omega⟩
  have hbreak : readPlain false (indent + 1) (rounds + 1) c (.blanks p) done =
      readPlain false (indent + 1) rounds c.skipBreak (.breaks ['\n'] []) done := by
    rw [readPlain]
    split
    · next hrest => simp [h] at hrest
    · next hrest =>
      rw [h, List.cons.injEq] at hrest
      obtain ⟨rfl, rfl⟩ := hrest
      simp [isBlank, isBreak, Cursor.breakText, h, Pending.addBreak]
  rw [hbreak, readPlain_spaces (Cursor.skipBreak_eq h rfl (by decide)).1 (by omega)]
  generalize c.skipBreak.skip n = c' at hbelow
  obtain ⟨r, hr⟩ : ∃ r, rounds - n = r + 1 := ⟨rounds - n - 1, by omega⟩
  rw [hr, readPlain]
  split
  · rfl
  · next y rest' hrest =>
    rw [hbelow.rest_eq] at hrest
    obtain ⟨hblank, hline, -, -⟩ := startsToken_iff.1 (hfollows.head y (by simp [hrest]))
    -- the next token is not to the right, or starts another document
    have hends : (decide ((c'.column : Int) < indent + 1) || c'.atDocumentMarker) = true := by
      rw [hbelow.column_eq]
      rcases hfollows.ends with hn | ⟨rfl, rfl | ⟨tail, rfl⟩⟩
      · simp only [Bool.or_eq_true, decide_eq_true_eq]
        exact Or.inl (by omega)
      · simp at hrest
      · simp [Cursor.atDocumentMarker, Cursor.atMarker, Cursor.startsWith, Cursor.blankAfter,
          hbelow.rest_eq, hbelow.column_eq, isBreak]
    simp only [hblank, hline, hends, Pending.hasBreak, Bool.false_eq_true, if_false, Bool.not_false,
      Bool.true_and, Bool.true_or, if_true]

/-! ## The whole scalar -/

/-- What is known of a text that can be written without quotes. -/
structure PlainText (t : List Char) : Prop where
  ne_nil : t ≠ []
  printable : ∀ x ∈ t, isPrintable x = true
  noBreak : ∀ x ∈ t, isBreak x = false
  noInnerMark : hasInnerMark t = false
  noOuterMark : hasOuterMark t = false
  head : ∀ x ∈ t.head?, isBlank x = false
  last : ∀ x ∈ t.getLast?, isBlank x = false

/-- Tabulators are not printable, so the only blank is the space. -/
theorem eq_space_of_isBlank (hprint : isPrintable x = true) (hblank : isBlank x = true) : x = ' ' := by
  simp only [isBlank, Bool.or_eq_true, beq_iff_eq] at hblank
  rcases hblank with rfl | rfl
  · rfl
  · exact absurd hprint (by decide)

/-- What the printer asks of a text before it leaves out the quotes. -/
theorem plainText_of_allowsPlain (h : allowsPlain t = true) : PlainText t := by
  simp only [allowsPlain, allowsSingle, isMultiline, isPadded, Bool.and_eq_true, Bool.not_eq_true',
    Bool.or_eq_false_iff, List.all_eq_true, List.any_eq_false, List.isEmpty_eq_false_iff] at h
  obtain ⟨⟨⟨⟨⟨hne, ⟨hprint, -⟩, -⟩, hbreak⟩, hhead, hlast⟩, houter⟩, hinner⟩ := h
  -- at both ends the printer asks about the space and breaks, which rules out every blank
  have hedge : ∀ {y : Option Char}, (∀ x ∈ y, x ∈ t) →
      y.any (fun c => c == ' ' || isBreak c) = false → ∀ x ∈ y, isBlank x = false := by
    intro y hmem hy x hx
    by_contra hblank
    obtain rfl := eq_space_of_isBlank (hprint x (hmem x hx)) (by simpa using hblank)
    simp [Option.mem_def.1 hx] at hy
  exact ⟨hne, hprint, by simpa using hbreak, hinner, houter,
    hedge (fun x hx => List.mem_of_mem_head? hx) hhead, hedge (fun x hx => List.mem_of_mem_getLast? hx) hlast⟩

/-- A plain scalar does not start like a document marker. -/
theorem PlainText.not_atDocumentMarker {y : Char} (h : PlainText t) (hrest : c.rest = t ++ y :: rest)
    (hdash : y ≠ '-') (hdot : y ≠ '.') : c.atDocumentMarker = false := by
  have houter := h.noOuterMark
  have hstart : ∀ x, y ≠ x → t.take 3 ≠ [x, x, x] → c.startsWith [x, x, x] = false := by
    intro x hy htake
    rw [Cursor.startsWith, hrest]
    -- a shorter text is followed by a character that is not of the marker
    match t, h.ne_nil with
    | [a], _ => simp [List.isPrefixOf, Ne.symm hy]
    | [a, b], _ => simp [List.isPrefixOf, Ne.symm hy]
    | a :: b :: d :: _, _ =>
      have hne : ¬ (a = x ∧ b = x ∧ d = x) := by simpa using htake
      simp only [List.cons_append, List.isPrefixOf, Bool.and_true]
      by_contra hall
      simp only [Bool.not_eq_false, Bool.and_eq_true, beq_iff_eq] at hall
      exact hne ⟨hall.1.symm, hall.2.1.symm, hall.2.2.symm⟩
  obtain ⟨a, more, rfl⟩ := List.exists_cons_of_ne_nil h.ne_nil
  simp only [hasOuterMark, Bool.or_eq_false_iff, beq_eq_false_iff_ne] at houter
  simp [Cursor.atDocumentMarker, Cursor.atMarker, hstart '-' hdash houter.1.2, hstart '.' hdot houter.2]

/-- A plain scalar behind which the line ends. -/
theorem readPlain_value (h : PlainText t) (hrest : c.rest = t ++ '\n' :: (List.replicate n ' ' ++ rest))
    (hfollows : Follows indent n rest) :
    ∃ c', readPlain false (indent + 1) (c.left + 1) c .none [] = .ok (t, true, c') ∧
      c.Below n rest c' := by
  have hleft : c.left = t.length + (1 + (n + rest.length)) := by
    simp [c.left_eq, hrest]
    omega
  obtain ⟨p, done, happend, -, hlast, hread⟩ := @readPlain_text c (indent + 1) (c.left + 1) [] [] t _
    h.noBreak h.noInnerMark (fun _ => rfl) (h.not_atDocumentMarker hrest (by decide) (by decide)) hrest
    (by omega)
  obtain ⟨x, hx⟩ : ∃ x, t.getLast? = some x := ⟨_, List.getLast?_eq_some_getLast h.ne_nil⟩
  -- the last character is no blank, so nothing is pending and the scalar ends with it
  obtain rfl := hlast x hx (h.last x hx)
  have hbehind := Cursor.rest_skip hrest
  have hbelow := Cursor.below_skipBreak hbehind rfl (by decide)
  refine ⟨_, ?_, hbelow.rest_eq, hbelow.column_eq, hbelow.line_lt⟩
  rw [Pending.none, hread, readPlain_newline hbehind hfollows (by omega)]
  have hdone : done = t.reverse := by simpa using happend
  rw [hdone, List.reverse_reverse]

/-- A plain scalar behind which a colon stands. -/
theorem readPlain_key {y : Char} (h : PlainText t) (hrest : c.rest = t ++ ':' :: y :: rest)
    (hy : (isBlank y || isBreak y) = true) :
    readPlain false indent (c.left + 1) c .none [] = .ok (t, false, c.skip t.length) := by
  have hleft : c.left = t.length + (2 + rest.length) := by
    simp [c.left_eq, hrest]
    omega
  obtain ⟨p, done, happend, -, hlast, hread⟩ := @readPlain_text c indent (c.left + 1) [] [] t _
    h.noBreak h.noInnerMark (fun _ => rfl) (h.not_atDocumentMarker hrest (by decide) (by decide)) hrest
    (by omega)
  -- no blanks are pending behind the last character, so the key ends with it
  obtain ⟨x, hx⟩ : ∃ x, t.getLast? = some x := ⟨_, List.getLast?_eq_some_getLast h.ne_nil⟩
  obtain rfl := hlast x hx (h.last x hx)
  have hbehind := Cursor.rest_skip hrest
  have hcolumn : (c.skip t.length).column ≠ 0 := by
    have hlength := List.length_pos_of_ne_nil h.ne_nil
    rw [Cursor.column_skip hrest]
    omega
  have hblank : ((c.skip t.length).skip 1).blankAfter 0 = true := by
    rw [Cursor.blankAfter, Cursor.rest_skip_one hbehind]
    simpa using hy
  rw [Pending.none, hread, readPlain_colon hbehind hblank (Cursor.atDocumentMarker_of_column hcolumn)
    (by omega)]
  have hdone : done = t.reverse := by simpa using happend
  rw [hdone, List.reverse_reverse]

end PartialResponse.Yaml
