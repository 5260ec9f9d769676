import PartialResponse.Proofs.Yaml.Steps

/-!
# PartialResponse.Proofs.Yaml.Marks — the marks of collections

The steps past hyphens, question marks, colons, brackets and braces. The first mark
of a collection opens it if it is indented more deeply than the one around; the items
of an array behind its key may be level with the object around, and nothing opens or
ends then.
-/

namespace PartialResponse.Yaml.TokenStream

/-- How the first mark in a column enters a collection: which token opens it there and which ends it,
and what lies around it then. -/
inductive Enters (start : Token) (col : Nat) : Int → List Int → List Token → List Token → List Int → Prop
  | opens {i : Int} {is : List Int} (h : i < col) : Enters start col i is [start] [.blockEnd] (i :: is)
  | level {is : List Int} : Enters start col col is [] [] is

variable {c : Cursor} {q opening closing : List Token} {i : Int} {is js : List Int} {allowed : Bool}
  {key : Option SimpleKey} {n col : Nat} {rest : List Char} {x y : Char}

/-- A collection is entered no further out than the one around it. -/
theorem Enters.le {start : Token} (h : Enters start col i is opening closing js) : i ≤ col := by
  cases h with
  | opens h => omega
  | level => exact Int.le_refl _

/-- Levels that end at the ground still do with one more. -/
theorem Enters.grounded {start : Token} (h : Enters start col i is opening closing js)
    (hground : Grounded i is) : Grounded col js := by
  cases h with
  | opens h => exact hground.cons
  | level => exact hground

/-- Ending what has been entered. -/
theorem Enters.unindentTo {start : Token} (h : Enters start col i is opening closing js)
    (hground : Grounded i is) {m : Int} (hm : -1 ≤ m) (hle : m ≤ i) :
    (flat c q col js allowed key).unindentTo m = (flat c (q ++ closing) i is allowed key).unindentTo m := by
  cases h with
  | opens h => exact unindentTo_block hground hm (by omega)
  | level => rw [List.append_nil]

/-! ## Marks of blocks -/

/-- Two different characters start no marker of documents. -/
theorem atMarker_eq_false (hrest : c.rest = x :: y :: rest) (z : Char) (hxy : x ≠ y) :
    c.atMarker z = false := by
  have hstart : c.startsWith [z, z, z] = false := by
    rw [Cursor.startsWith, hrest]
    simp only [List.isPrefixOf, Bool.and_eq_false_iff, beq_eq_false_iff_ne]
    by_cases hz : z = x
    · exact .inr (.inl (hz ▸ hxy))
    · exact .inl hz
  simp [Cursor.atMarker, hstart]

/-- What stands behind the first character decides whether it is a mark. -/
theorem blankAfter_eq (hrest : c.rest = x :: y :: rest) :
    c.blankAfter 1 = (isBlank y || isBreak y) := by
  simp [Cursor.blankAfter, hrest]

/-- A mark opens a collection if it stands further in, and goes on with it if it is level. -/
theorem putStart_flat {start : Token} (h : Enters start c.column i is opening closing js) :
    (flat c q i is true none).putStart start = .ok (flat c (q ++ opening) c.column js true none) := by
  cases h with
  | opens h => simp [putStart, flat, inFlow, indentTo, h, put]
  | level => simp [putStart, flat, inFlow, indentTo]

/-- The mark of an item. -/
theorem produceHere_entry (hrest : c.rest = '-' :: ' ' :: rest)
    (h : Enters .blockSequenceStart c.column i is opening closing js) :
    (flat c q i is true none).produceHere =
      .ok (flat (c.skip 1) (q ++ (opening ++ [.blockEntry])) c.column js true none) := by
  have hmarker := fun z => atMarker_eq_false hrest z (by decide)
  have hblank := blankAfter_eq hrest
  have hcursor : (flat c q i is true none).cursor = c := rfl
  have hput : (flat c q i is true none).putBlockEntry =
      .ok (flat (c.skip 1) (q ++ (opening ++ [.blockEntry])) c.column js true none) := by
    rw [putBlockEntry, putStart_flat h]
    simp [dropKey, flat, putSkip, put]
  simpa [produceHere, hcursor, hrest, hmarker, hblank, isBlank] using hput

/-- The mark of a key that stands apart. -/
theorem produceHere_key (hrest : c.rest = '?' :: ' ' :: rest)
    (h : Enters .blockMappingStart c.column i is opening closing js) :
    (flat c q i is true none).produceHere =
      .ok (flat (c.skip 1) (q ++ (opening ++ [.key])) c.column js true none) := by
  have hmarker := fun z => atMarker_eq_false hrest z (by decide)
  have hblank := blankAfter_eq hrest
  have hcursor : (flat c q i is true none).cursor = c := rfl
  have hput : (flat c q i is true none).putKey =
      .ok (flat (c.skip 1) (q ++ (opening ++ [.key])) c.column js true none) := by
    rw [putKey, putStart_flat h]
    simp [dropKey, flat, putSkip, put, inFlow]
  simpa [produceHere, hcursor, hrest, hmarker, hblank, isBlank] using hput

/-- The mark of a value that stands apart from its key. -/
theorem produceHere_value (hrest : c.rest = ':' :: ' ' :: rest) :
    (flat c q c.column is true none).produceHere =
      .ok (flat (c.skip 1) (q ++ [.value]) c.column is true none) := by
  have hmarker := fun z => atMarker_eq_false hrest z (by decide)
  have hblank := blankAfter_eq hrest
  have hcursor : (flat c q c.column is true none).cursor = c := rfl
  have hput : (flat c q c.column is true none).putValue =
      .ok (flat (c.skip 1) (q ++ [.value]) c.column is true none) := by
    have hkey : (flat c q c.column is true none).possibleKey = none := rfl
    rw [putValue, hkey, putStart_flat .level]
    simp [flat, putSkip, put, inFlow]
  simpa [produceHere, hcursor, hrest, hmarker, hblank, isBlank] using hput

/-- The colon behind a key on its line. The key is known as one only now, so its mark and perhaps the
start of the object go in front of it. -/
theorem produceHere_colon {k : SimpleKey} {t : Token} (hrest : c.rest = ':' :: y :: rest)
    (hy : (isBlank y || isBreak y) = true) (hcolon : y ≠ ':') (htoken : k.token = q.length)
    (h : Enters .blockMappingStart k.column i is opening closing js) :
    (flat c (q ++ [t]) i is allowed (some k)).produceHere =
      .ok (flat (c.skip 1) (q ++ (opening ++ [.key, t, .value])) k.column js false none) := by
  have hmarker := fun z => atMarker_eq_false hrest z hcolon.symm
  have hblank := blankAfter_eq hrest
  have hcursor : (flat c (q ++ [t]) i is allowed (some k)).cursor = c := rfl
  have hput : (flat c (q ++ [t]) i is allowed (some k)).putValue =
      .ok (flat (c.skip 1) (q ++ (opening ++ [.key, t, .value])) k.column js false none) := by
    have hkey : (flat c (q ++ [t]) i is allowed (some k)).possibleKey = some k := rfl
    rw [putValue, hkey]
    cases h with
    | opens h => simp [flat, putAt, indentTo, inFlow, putSkip, put, htoken, h]
    | level => simp [flat, putAt, indentTo, inFlow, putSkip, put, htoken]
  rw [← hput]
  simp [produceHere, hcursor, hrest, hmarker, hblank, hy]

/-! ## Empty collections -/

/-- The key that may start where a token does. -/
def keyHere (c : Cursor) (q : List Token) (i : Int) : SimpleKey :=
  ⟨i == c.column, q.length, c.index, c.line, c.column⟩

/-- That key, if one may start there. -/
def noted (c : Cursor) (q : List Token) (i : Int) (allowed : Bool) : Option SimpleKey :=
  if allowed then some (keyHere c q i) else none

/-- Where a key may start, the next token is noted as one. -/
theorem noteKey_flat : (flat c q i is allowed none).noteKey = .ok (flat c q i is allowed (noted c q i allowed)) := by
  cases allowed with
  | false => rfl
  | true => simp [noteKey, flat, dropKey, noted, keyHere, inFlow]

/-- A key that has been noted is given up on a later line, as none is required there. -/
theorem goesBefore_noted {line : Nat} (hcol : i < c.column) (hline : c.line < line) :
    GoesBefore line (noted c q i allowed) := by
  intro k hk
  cases allowed with
  | false => simp [noted] at hk
  | true =>
    obtain rfl : keyHere c q i = k := by simpa [noted] using hk
    exact ⟨by simpa [keyHere] using by omega, hline⟩

/-- The stream behind an opening bracket or brace. -/
def opened (c : Cursor) (q : List Token) (i : Int) (is : List Int) (key : Option SimpleKey) : TokenStream :=
  ⟨c, q, 0, i, is, true, none, [key.isSome], key.toList, key, none⟩

/-- A key that has been noted stays possible for some characters on its line. -/
theorem isStale_noted {c' : Cursor} {s : TokenStream} (hs : s.cursor = c') (hline : c'.line = c.line)
    (hindex : c'.index ≤ c.index + 1024) : ∀ k ∈ noted c q i allowed, s.isStale k = false := by
  intro k hk
  cases allowed with
  | false => simp [noted] at hk
  | true =>
    obtain rfl : keyHere c q i = k := by simpa [noted] using hk
    simp [isStale, keyHere, hs, hline, hindex]

/-- Behind an opening bracket nothing is skipped in front of the next token. -/
theorem approach_opened (hrest : c.rest = x :: rest) (hx : startsToken x = true)
    (hkey : ∀ k ∈ key, (opened c q i is key).isStale k = false) :
    (opened c q i is key).approach = .ok (opened c q i is key) := by
  have hcursor : (opened c q i is key).cursor = c := rfl
  obtain ⟨hspace, htab⟩ := not_startsToken_mark hx
  obtain ⟨-, hbreak, hcomment, hmark⟩ := startsToken_iff.1 hx
  have hskip : skipSpace (c.left + 1) (opened c q i is key) = opened c q i is key := by
    have hat : c.at? '\ufeff' = false := Cursor.at?_eq_false (by simpa [hrest] using hmark)
    have hnone : c.skipWhile (fun x => x == ' ' || (true && x == '\t')) = c :=
      Cursor.skipWhile_of_head (by simp [hrest, hspace, htab])
    have hsame : c.skipComment = c := Cursor.skipComment_eq (by simpa [hrest] using hcomment)
    have hends : c.nextIs isBreak = false := by simp [Cursor.nextIs, hrest, hbreak]
    simp only [skipSpace, opened, inFlow, hat, Bool.false_eq_true, and_false, if_false,
      List.isEmpty_cons, Bool.not_false, Bool.true_or, hnone, hsame, hends]
  have hrefresh : (opened c q i is key).refreshKeys = .ok (opened c q i is key) :=
    refreshKeys_of_not_isStale (by simp [opened]) hkey
  rw [approach, hcursor, hskip, hrefresh]
  rfl

/-- The marks of an empty collection, and the tokens they are. -/
inductive EmptyMarks : Char → Char → Token → Token → Prop
  | brackets : EmptyMarks '[' ']' .flowSequenceStart .flowSequenceEnd
  | braces : EmptyMarks '{' '}' .flowMappingStart .flowMappingEnd

section Empty

variable {left right : Char} {start stop : Token}

/-- Brackets and braces start tokens. -/
theorem EmptyMarks.startsToken (h : EmptyMarks left right start stop) :
    startsToken left = true ∧ startsToken right = true := by
  cases h <;> decide

/-- The two marks differ, so they are no marker of documents. -/
theorem EmptyMarks.ne (h : EmptyMarks left right start stop) : left ≠ right ∧ right ≠ '\n' := by
  cases h <;> decide

/-- A mark is one byte. -/
theorem EmptyMarks.byteCount (h : EmptyMarks left right start stop) : byteCount [left] = 1 := by
  cases h <;> decide

/-- Opening notes the key in front of the bracket and starts afresh inside. -/
theorem produceHere_opened (h : EmptyMarks left right start stop) (hrest : c.rest = left :: right :: rest) :
    (flat c q i is allowed none).produceHere =
      .ok (opened (c.skip 1) (q ++ [start]) i is (noted c q i allowed)) := by
  have hcursor : (flat c q i is allowed none).cursor = c := rfl
  have hmarker := fun z => atMarker_eq_false hrest z h.ne.1
  have hput : ∀ t, (flat c q i is allowed none).putOpen t =
      .ok (opened (c.skip 1) (q ++ [t]) i is (noted c q i allowed)) := by
    intro t
    rw [putOpen, noteKey_flat]
    simp [flat, opened, putSkip, put, inFlow]
  cases h <;> simpa [produceHere, hcursor, hrest, hmarker] using hput _

/-- Closing lets go of the key that was noted inside, and the one noted in front becomes the key again. -/
theorem produceHere_closed (h : EmptyMarks left right start stop) (hrest : c.rest = right :: '\n' :: rest)
    (hfresh : ∀ k ∈ key, (opened c q i is key).isStale k = false) :
    (opened c q i is key).produceHere = .ok (flat (c.skip 1) (q ++ [stop]) i is false key) := by
  have hcursor : (opened c q i is key).cursor = c := rfl
  have hmarker := fun z => atMarker_eq_false hrest z h.ne.2
  have hput : ∀ t, (opened c q i is key).putClose t =
      .ok (flat (c.skip 1) (q ++ [t]) i is false key) := by
    intro t
    cases key with
    | none => simp [putClose, opened, dropKey, flat, putSkip, put]
    | some k => simpa [putClose, opened, dropKey, flat, putSkip, put] using hfresh k rfl
  cases h <;> simpa [produceHere, hcursor, hrest, hmarker] using hput _

/-- An empty collection in brackets or braces, behind which the line ends. -/
theorem runs_empty {n : Nat} (hmarks : EmptyMarks left right start stop)
    (hrest : c.rest = left :: right :: '\n' :: (List.replicate n ' ' ++ rest))
    (hhead : ∀ x ∈ rest.head?, Yaml.startsToken x = true) (hcol : i < c.column) :
    ∃ c', Runs (flat c q i is allowed none)
        ((flat c' (q ++ [start, stop]) i is true none).unindentTo n) ∧ c.Below n rest c' := by
  have hrest₁ := Cursor.rest_skip_one hrest
  have hrest₂ := Cursor.rest_skip_one hrest₁
  have hfresh := @isStale_noted c q i allowed (c.skip 1)
    (opened (c.skip 1) (q ++ [start]) i is (noted c q i allowed)) rfl rfl (by
      have hindex := Cursor.index_skip (a := [left]) hrest
      rw [List.length_singleton, hmarks.byteCount] at hindex
      omega)
  have hclose := produceHere_closed hmarks hrest₁ hfresh
  rw [List.append_assoc, List.singleton_append] at hclose
  -- the collection may have been a key, but the line ends behind it
  have hline : GoesBefore (((c.skip 1).skip 1).line + 1) (noted c q i allowed) :=
    goesBefore_noted hcol (Nat.lt_succ_self _)
  obtain ⟨c', happroach, hbelow⟩ := @approach_newline ((c.skip 1).skip 1) (q ++ [start, stop]) i is false
    (noted c q i allowed) n rest hrest₂ hhead hline
  have hless₁ : (c.skip 1).left < c.left := Cursor.left_lt_of_rest (a := [left]) (by rw [hrest, hrest₁]; rfl)
    (by simp)
  have hless₂ : ((c.skip 1).skip 1).left < (c.skip 1).left :=
    Cursor.left_lt_of_rest (a := [right]) (by rw [hrest₁, hrest₂]; rfl) (by simp)
  have hsound : (opened (c.skip 1) (q ++ [start]) i is (noted c q i allowed)).Sound :=
    ⟨by simp [opened], fun k hk => ⟨Nat.zero_le _, hfresh k (Option.mem_toList.1 hk)⟩⟩
  have hstep₁ : Step (flat c q i is allowed none)
      (opened (c.skip 1) (q ++ [start]) i is (noted c q i allowed)) :=
    ⟨rfl, _, produceHere_opened hmarks hrest, approach_opened hrest₁ hmarks.startsToken.2 hfresh, hsound, rfl,
      hless₁⟩
  have hstep₂ : Step (opened (c.skip 1) (q ++ [start]) i is (noted c q i allowed))
      ((flat c' (q ++ [start, stop]) i is true none).unindentTo n) :=
    ⟨rfl, _, hclose, happroach, sound_flat, rfl, hless₂⟩
  exact ⟨c', .head hstep₁ (.single hstep₂), hbelow.rest_eq, hbelow.column_eq, hbelow.line_lt⟩

end Empty

end PartialResponse.Yaml.TokenStream
