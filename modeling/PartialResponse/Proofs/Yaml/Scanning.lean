import PartialResponse.Proofs.Tree.Parts
import PartialResponse.Proofs.Yaml.Numbers
import PartialResponse.Proofs.Yaml.Styles

/-!
# PartialResponse.Proofs.Yaml.Scanning — the tokens of a written tree

The text of a tree has the tokens that the tree says: `tokensOf` names them. Each kind
of text is scanned from its first character up to the token behind it. The
collections that end there are ended only as far as that token asks, so what is
known is what comes of ending all of them.
-/

namespace PartialResponse.Yaml

open TokenStream

/-! ## Tokens of a tree -/

/-- The text that is read for a scalar. -/
def shownText : Scalar → String
  | .string s => s
  | value => String.ofList (scalarText 0 value)

/-- Whether a scalar is written without quotes and block headers. -/
def showsPlain : Scalar → Bool
  | .string s => styleOf s == .plain
  | _ => true

/-- The token of a scalar. -/
def scalarToken (value : Scalar) : Token :=
  .scalar (shownText value) (showsPlain value)

mutual

/-- The tokens of a value. -/
def tokensOf : Tree → List Token
  | .scalar value => [scalarToken value]
  | .array items =>
    if items.isEmpty then [.flowSequenceStart, .flowSequenceEnd]
    else .blockSequenceStart :: (itemTokens items ++ [.blockEnd])
  | .object properties =>
    if properties.isEmpty then [.flowMappingStart, .flowMappingEnd]
    else .blockMappingStart :: (propertyTokens properties ++ [.blockEnd])

/-- The tokens of a value behind its key, where the items of an array are level with the object. -/
def levelTokens : Tree → List Token
  | .scalar value => [scalarToken value]
  | .array items =>
    if items.isEmpty then [.flowSequenceStart, .flowSequenceEnd] else itemTokens items
  | .object properties =>
    if properties.isEmpty then [.flowMappingStart, .flowMappingEnd]
    else .blockMappingStart :: (propertyTokens properties ++ [.blockEnd])

/-- The tokens of items. -/
def itemTokens : List Tree → List Token
  | [] => []
  | item :: rest => .blockEntry :: (tokensOf item ++ itemTokens rest)

/-- The tokens of properties. -/
def propertyTokens : Properties Tree → List Token
  | [] => []
  | (name, value) :: rest =>
    .key :: stringToken name :: .value ::
      ((if isSimpleKey name then levelTokens value else tokensOf value) ++ propertyTokens rest)

end

/-! ## Scalars -/

/-- A scalar that is no string is written as plain text, the same at every depth. -/
theorem plainText_scalar {value : Scalar} (h : ∀ s, value ≠ .string s) (indent : Nat) :
    PlainText (scalarText indent value) ∧ scalarText indent value = scalarText 0 value := by
  cases value with
  | null => exact ⟨@plainText_of_allowsPlain ['n', 'u', 'l', 'l'] (by decide), rfl⟩
  | bool b =>
    cases b with
    | false => exact ⟨@plainText_of_allowsPlain ['f', 'a', 'l', 's', 'e'] (by decide), rfl⟩
    | true => exact ⟨@plainText_of_allowsPlain ['t', 'r', 'u', 'e'] (by decide), rfl⟩
  | number n => exact ⟨(numberText_text n).plainText, rfl⟩
  | string s => exact absurd rfl (h s)

variable {c : Cursor} {q opening closing : List Token} {i : Int} {is js : List Int} {allowed : Bool}
  {n indent col : Nat} {rest : List Char} {a b : TokenStream}

/-- A scalar behind which the line ends. -/
theorem runs_scalar {value : Scalar} (hindent : indent = i.toNat + 2)
    (hrest : c.rest = endLine (scalarText indent value) ++ (List.replicate n ' ' ++ rest))
    (hcol : i < c.column) (hfollows : Follows i n rest) :
    ∃ c', Runs (flat c q i is allowed none)
        ((flat c' (q ++ [scalarToken value]) i is true none).unindentTo n) ∧ c.Below n rest c' := by
  -- strings have styles of their own; everything else is plain
  by_cases h : ∃ s, value = .string s
  · obtain ⟨s, rfl⟩ := h
    exact runs_string hindent hrest hcol hfollows
  · have hplain : ∀ s, value ≠ .string s := fun s hs => h ⟨s, hs⟩
    obtain ⟨htext, hsame⟩ := plainText_scalar hplain indent
    have htoken : scalarToken value = .scalar (String.ofList (scalarText indent value)) true := by
      rw [hsame]
      cases value with
      | string s => exact absurd rfl (hplain s)
      | _ => rfl
    rw [htoken]
    exact runs_plain htext hrest hcol hfollows

/-! ## First characters -/

/-- Whether a token can start with the first character of a text. -/
def StartsToken (t : List Char) : Prop :=
  ∃ x more, t = x :: more ∧ startsToken x = true

theorem StartsToken.append {t : List Char} (h : StartsToken t) (rest : List Char) :
    ∀ x ∈ (t ++ rest).head?, startsToken x = true := by
  obtain ⟨x, more, rfl, hx⟩ := h
  simpa using hx

/-- Plain text starts neither with a comment nor with a byte order mark. -/
theorem PlainText.startsToken {t : List Char} (h : PlainText t) : StartsToken t := by
  obtain ⟨x, more, rfl⟩ := List.exists_cons_of_ne_nil h.ne_nil
  have hprint := h.printable x (by simp)
  have houter := h.noOuterMark
  refine ⟨x, more, rfl, startsToken_iff.2 ⟨h.head x rfl, h.noBreak x (by simp), ?_, ?_⟩⟩
  · rintro rfl
    simp [hasOuterMark] at houter
  · rintro rfl
    exact absurd hprint (by decide)

/-- A string starts a token in every style. -/
theorem startsToken_textOf (indent : Nat) (s : String) : StartsToken (textOf indent s) := by
  have hstyled := styled_styleOf s
  unfold textOf
  generalize styleOf s = style at hstyled ⊢
  cases hstyled with
  | plain _ h => exact h.startsToken
  | single _ => exact ⟨_, _, rfl, by decide⟩
  | double => exact ⟨_, _, rfl, by decide⟩
  | literal _ _ _ => exact ⟨_, _, rfl, by decide⟩

theorem StartsToken.endLine {t : List Char} (h : StartsToken t) : StartsToken (endLine t) := by
  obtain ⟨x, more, rfl, hx⟩ := h
  unfold Yaml.endLine
  split
  · exact ⟨x, more, rfl, hx⟩
  · exact ⟨x, more ++ ['\n'], rfl, hx⟩

/-- A scalar starts a token. -/
theorem startsToken_scalarText (indent : Nat) (value : Scalar) :
    StartsToken (scalarText indent value) := by
  by_cases h : ∃ s, value = .string s
  · obtain ⟨s, rfl⟩ := h
    exact startsToken_textOf indent s
  · exact (plainText_scalar (fun s hs => h ⟨s, hs⟩) indent).1.startsToken

/-- What is put in front of items is put in front of the first one. -/
theorem writeItems_lead (lead : List Char) (indent : Nat) (item : Tree) (more : List Tree) :
    writeItems lead indent (item :: more) = lead ++ writeItems [] indent (item :: more) := by
  simp [writeItems]

/-- What is put in front of properties is put in front of the first one. -/
theorem writeProperties_lead (lead : List Char) (indent : Nat) (property : String × Tree)
    (more : Properties Tree) :
    writeProperties lead indent (property :: more) =
      lead ++ writeProperties [] indent (property :: more) := by
  obtain ⟨name, value⟩ := property
  simp [writeProperties]

/-- A property and those behind it. -/
theorem writeProperties_cons (indent : Nat) (property next : String × Tree) (more : Properties Tree) :
    writeProperties [] indent (property :: next :: more) =
      writeProperties [] indent [property] ++ (spaces indent ++ writeProperties [] indent (next :: more)) := by
  obtain ⟨name, value⟩ := property
  have hnil : writeProperties (spaces indent) indent [] = [] := by rw [writeProperties]
  conv_lhs => rw [writeProperties, writeProperties_lead]
  conv_rhs => rw [writeProperties, hnil, List.append_nil]

/-- An item starts with its dash. -/
theorem startsToken_writeItems (indent : Nat) (item : Tree) (more : List Tree) :
    StartsToken (writeItems [] indent (item :: more)) := by
  refine ⟨'-', ' ' :: (writeHere (indent + 2) (indent + 2) item ++ writeItems (spaces indent) indent more),
    ?_, by decide⟩
  simp [writeItems]

/-- A property starts with its key, or with a question mark in front of it. -/
theorem startsToken_writeProperties (indent : Nat) (property : String × Tree) (more : Properties Tree) :
    StartsToken (writeProperties [] indent (property :: more)) := by
  obtain ⟨name, value⟩ := property
  rw [writeProperties]
  split
  · obtain ⟨x, others, hx, hstart⟩ := startsToken_textOf (indent + 2) name
    exact ⟨x, _, by rw [hx]; rfl, hstart⟩
  · exact ⟨'?', _, rfl, by decide⟩

/-- Every value starts a token where it stands on the current line. -/
theorem startsToken_writeHere (indent inner : Nat) (value : Tree) :
    StartsToken (writeHere indent inner value) := by
  cases value with
  | scalar value =>
    rw [writeHere]
    exact (startsToken_scalarText inner value).endLine
  | array items =>
    cases items with
    | nil => exact ⟨'[', [']', '\n'], by simp [writeHere], by decide⟩
    | cons item more => simpa [writeHere] using startsToken_writeItems indent item more
  | object properties =>
    cases properties with
    | nil => exact ⟨'{', ['}', '\n'], by simp [writeHere], by decide⟩
    | cons property more => simpa [writeHere] using startsToken_writeProperties indent property more

/-! ## From one token to the token behind a value -/

/-- A run that has produced the given tokens when all collections are ended that lie inside the given
ones. -/
def Scans (a : TokenStream) (indent : Int) (indents : List Int) (queue : List Token) (n : Nat)
    (rest : List Char) : Prop :=
  ∃ c q i is, Runs a ((flat c q i is true none).unindentTo n) ∧ c.rest = rest ∧ c.column = n ∧
    Grounded i is ∧ ∀ m : Int, -1 ≤ m → m ≤ indent →
      (flat c q i is true none).unindentTo m = (flat c queue indent indents true none).unindentTo m

/-- A run in front of a scan. -/
theorem Scans.of_runs (hrun : Runs a b) (h : Scans b i is q n rest) : Scans a i is q n rest := by
  obtain ⟨c, q', i', is', hrun', hc⟩ := h
  exact ⟨c, q', i', is', hrun.trans hrun', hc⟩

/-- A value that leaves no collection open. -/
theorem scans_of_runs {c c' : Cursor} (hrun : Runs a ((flat c' q i is true none).unindentTo n))
    (hbelow : c.Below n rest c') (hground : Grounded i is) : Scans a i is q n rest :=
  ⟨c', q, i, is, hrun, hbelow.rest_eq, hbelow.column_eq, hground, fun _ _ _ => rfl⟩

/-- The collection that has been entered ends. -/
theorem Scans.close {start : Token} (h : Scans a col js q n rest)
    (henters : Enters start col i is opening closing js) (hground : Grounded i is) :
    Scans a i is (q ++ closing) n rest := by
  obtain ⟨c, q', i', is', hrun, hrest, hcolumn, hground', hends⟩ := h
  refine ⟨c, q', i', is', hrun, hrest, hcolumn, hground', fun m hm hle => ?_⟩
  have hcol := henters.le
  -- first what lies inside the collection ends, then the collection
  rw [hends m hm (by omega), henters.unindentTo hground hm hle]

/-- In front of a token that is level with the collection, nothing but what lies inside it has
ended. -/
theorem Scans.level (h : Scans a col is q col rest) :
    ∃ c, Runs a (flat c q col is true none) ∧ c.rest = rest ∧ c.column = col := by
  obtain ⟨c, q', i', is', hrun, hrest, hcolumn, -, hends⟩ := h
  refine ⟨c, ?_, hrest, hcolumn⟩
  have hsame : (flat c q col is true none).unindentTo col = flat c q col is true none :=
    unindentTo_of_le (Int.le_refl _)
  rwa [hends col (by omega) (Int.le_refl _), hsame] at hrun

/-! ## Collections of values -/

/-- Whether a value is scanned where it starts on the current line. -/
def ScansHere (value : Tree) : Prop :=
  ∀ {c : Cursor} {q : List Token} {i : Int} {is : List Int} {col n : Nat} {rest : List Char},
    c.column = col → c.rest = writeHere col (i.toNat + 2) value ++ (List.replicate n ' ' ++ rest) →
    i < col → Grounded i is → Follows i n rest →
    Scans (flat c q i is true none) i is (q ++ tokensOf value) n rest

/-- Whether a value is scanned behind the colon of its key. -/
def ScansBehindKey (value : Tree) : Prop :=
  ∀ {c : Cursor} {q : List Token} {is : List Int} {col n : Nat} {rest : List Char},
    col < c.column → c.rest = writeBehindKey col value ++ (List.replicate n ' ' ++ rest) →
    Grounded col is → Follows col n rest →
    ∃ b, (flat c q col is false none).approach = .ok b ∧ Scans b col is (q ++ levelTokens value) n rest

/-- To the token behind a mark, a space further on. -/
theorem approach_space {c : Cursor} (hrest : c.rest = ' ' :: rest)
    (hhead : ∀ x ∈ rest.head?, startsToken x = true) (hcol : i ≤ c.column) :
    (flat c q i is allowed none).approach = .ok (flat (c.skip 1) q i is allowed none) := by
  have hrest' : c.rest = List.replicate 1 ' ' ++ rest := hrest
  have hcolumn := Cursor.column_skip (a := [' ']) hrest
  rw [List.length_singleton] at hcolumn
  rw [@approach_spaces c q i is allowed none 1 rest none hrest' hhead rfl, unindentTo_of_le (by simp only [flat]; omega)]

/-- The step past a mark with a space behind it. -/
theorem step_mark {c : Cursor} {q' : List Token} {i' : Int} {is' : List Int} {x : Char}
    (hrest : c.rest = x :: ' ' :: rest) (hhead : ∀ x ∈ rest.head?, startsToken x = true)
    (hproduce : (flat c q i is allowed none).produceHere = .ok (flat (c.skip 1) q' i' is' true none))
    (hcol : i' ≤ c.column) :
    ∃ c', Step (flat c q i is allowed none) (flat c' q' i' is' true none) ∧ c'.rest = rest ∧
      c'.column = c.column + 2 := by
  have hrest₁ := Cursor.rest_skip_one hrest
  have hrest₂ := Cursor.rest_skip_one hrest₁
  have hcolumn₁ := Cursor.column_skip (a := [x]) hrest
  have hcolumn₂ := Cursor.column_skip (a := [' ']) hrest₁
  rw [List.length_singleton] at hcolumn₁ hcolumn₂
  have hless : (c.skip 1).left < c.left :=
    Cursor.left_lt_of_rest (a := [x]) (by rw [hrest, hrest₁]; rfl) (by simp)
  exact ⟨(c.skip 1).skip 1, step_flat hproduce (approach_space hrest₁ hhead (by omega)) hless, hrest₂,
    by omega⟩

/-- One item. -/
theorem scans_item {item : Tree} (hitem : ScansHere item) {c : Cursor} (hcolumn : c.column = col)
    (hrest : c.rest = '-' :: ' ' :: (writeHere (col + 2) (col + 2) item ++ (List.replicate n ' ' ++ rest)))
    (henters : Enters .blockSequenceStart col i is opening closing js) (hground : Grounded i is)
    (hfollows : Follows col n rest) :
    Scans (flat c q i is true none) col js (q ++ (opening ++ .blockEntry :: tokensOf item)) n rest := by
  subst hcolumn
  have hhead := (startsToken_writeHere (c.column + 2) (c.column + 2) item).append
    (List.replicate n ' ' ++ rest)
  obtain ⟨c', hstep, hc', hcolumn'⟩ :=
    step_mark hrest hhead (produceHere_entry hrest henters) (Int.le_refl _)
  have hscans := hitem hcolumn' (by simpa using hc') (by omega) (henters.grounded hground) hfollows
    (q := q ++ (opening ++ [.blockEntry]))
  simpa using hscans.of_runs (.single hstep)

/-- The items of an array, from the first one on. -/
theorem scans_items {items : List Tree} (hitems : ∀ item ∈ items, ScansHere item) (hne : items ≠ [])
    {c : Cursor} (hcolumn : c.column = col)
    (hrest : c.rest = writeItems [] col items ++ (List.replicate n ' ' ++ rest))
    (henters : Enters .blockSequenceStart col i is opening closing js) (hground : Grounded i is)
    (hfollows : Follows i n rest) :
    Scans (flat c q i is true none) i is (q ++ (opening ++ itemTokens items ++ closing)) n rest := by
  induction items generalizing c q i is opening closing js with
  | nil => exact absurd rfl hne
  | cons item more ih =>
    obtain ⟨hitem, hmore⟩ := List.forall_mem_cons.1 hitems
    have hfollows' := hfollows.mono henters.le
    -- the token behind an item is that of the next one, or what the caller says
    cases more with
    | nil =>
      have hscans := scans_item (q := q) hitem hcolumn (by simpa [writeItems] using hrest) henters hground
        hfollows'
      simpa [itemTokens] using hscans.close henters hground
    | cons next more =>
      have hbehind : Follows col col (writeItems [] col (next :: more) ++ (List.replicate n ' ' ++ rest)) :=
        ⟨(startsToken_writeItems col next more).append _, .inl (Int.le_refl _)⟩
      have hrest' : c.rest = '-' :: ' ' :: (writeHere (col + 2) (col + 2) item ++ (List.replicate col ' ' ++
          (writeItems [] col (next :: more) ++ (List.replicate n ' ' ++ rest)))) := by
        rw [hrest, writeItems, writeItems_lead, spaces]
        simp
      obtain ⟨c', hrun, hc', hcolumn'⟩ :=
        (scans_item (q := q) hitem hcolumn hrest' henters hground hbehind).level
      -- the collection is open now, so the other items are level with it
      have hscans := @ih (q ++ (opening ++ .blockEntry :: tokensOf item)) [] [] col js js hmore (by simp) c'
        hcolumn' hc' .level (henters.grounded hground) hfollows'
      have hclosed := (hscans.of_runs hrun).close henters hground
      simpa [itemTokens] using hclosed

/-- Behind the colon of a key comes a space or a line break. -/
theorem exists_writeBehindKey (indent : Nat) (value : Tree) :
    ∃ y more, writeBehindKey indent value = y :: more ∧ (y = ' ' ∨ y = '\n') := by
  cases value with
  | scalar value => exact ⟨' ', _, by rw [writeBehindKey], .inl rfl⟩
  | array items =>
    cases items with
    | nil => exact ⟨' ', ['[', ']', '\n'], by simp [writeBehindKey], .inl rfl⟩
    | cons item more =>
      exact ⟨'\n', spaces indent ++ writeItems [] indent (item :: more),
        by simp [writeBehindKey, writeItems_lead ('\n' :: spaces indent)], .inr rfl⟩
  | object properties =>
    cases properties with
    | nil => exact ⟨' ', ['{', '}', '\n'], by simp [writeBehindKey], .inl rfl⟩
    | cons property more =>
      exact ⟨'\n', spaces (indent + 2) ++ writeProperties [] (indent + 2) (property :: more),
        by simp [writeBehindKey, writeProperties_lead ('\n' :: spaces (indent + 2))], .inr rfl⟩

/-- A property whose key stands in front of the colon. -/
theorem scans_simpleProperty {name : String} {value : Tree} (hkey : isSimpleKey name = true)
    (hvalue : ScansBehindKey value) {c : Cursor} (hcolumn : c.column = col)
    (hrest : c.rest = textOf (col + 2) name ++ ':' :: (writeBehindKey col value ++
      (List.replicate n ' ' ++ rest)))
    (henters : Enters .blockMappingStart col i is opening closing js) (hground : Grounded i is)
    (hfollows : Follows col n rest) :
    Scans (flat c q i is true none) col js
      (q ++ (opening ++ .key :: stringToken name :: .value :: levelTokens value)) n rest := by
  subst hcolumn
  obtain ⟨y, more, htext, hy⟩ := exists_writeBehindKey c.column value
  have hblank : (isBlank y || isBreak y) = true := by rcases hy with rfl | rfl <;> rfl
  have hcolon : y ≠ ':' := by rcases hy with rfl | rfl <;> decide
  have hrest' : c.rest = textOf (c.column + 2) name ++ ':' :: y :: (more ++
      (List.replicate n ' ' ++ rest)) := by
    rw [hrest, htext]
    rfl
  obtain ⟨c', hstep, hproduce, hc', hle⟩ := @runs_key c q i is (c.column + 2) _ y opening closing js name hkey
    hrest' hblank hcolon henters
  -- the value starts behind the colon
  have hbehind : (c'.skip 1).rest = writeBehindKey c.column value ++ (List.replicate n ' ' ++ rest) := by
    rw [Cursor.rest_skip_one hc', htext]
    rfl
  have hcolumn := Cursor.column_skip (a := [':']) hc'
  rw [List.length_singleton] at hcolumn
  obtain ⟨b, happroach, hscans⟩ := hvalue (by omega) hbehind (henters.grounded hground) hfollows
    (q := q ++ (opening ++ [.key, stringToken name, .value]))
  have hless : (c'.skip 1).left < c'.left :=
    Cursor.left_lt_of_rest (a := [':']) (by rw [hc', Cursor.rest_skip_one hc']; rfl) (by simp)
  have hrun : Runs (flat c q i is true none) b :=
    .head hstep (.single (step_flat hproduce happroach hless))
  simpa using hscans.of_runs hrun

/-- A property whose key stands apart. -/
theorem scans_apartProperty {name : String} {value : Tree} (hvalue : ScansHere value) {c : Cursor}
    (hcolumn : c.column = col)
    (hrest : c.rest = '?' :: ' ' :: (endLine (textOf (col + 2) name) ++ (List.replicate col ' ' ++
      ':' :: ' ' :: (writeHere (col + 2) (col + 2) value ++ (List.replicate n ' ' ++ rest)))))
    (henters : Enters .blockMappingStart col i is opening closing js) (hground : Grounded i is)
    (hfollows : Follows col n rest) :
    Scans (flat c q i is true none) col js
      (q ++ (opening ++ .key :: stringToken name :: .value :: tokensOf value)) n rest := by
  subst hcolumn
  have hcolon : Follows c.column c.column (':' :: ' ' :: (writeHere (c.column + 2) (c.column + 2) value ++
      (List.replicate n ' ' ++ rest))) :=
    ⟨by simpa using by decide, .inl (Int.le_refl _)⟩
  -- past the question mark, the key, and the colon
  obtain ⟨c₁, hstep₁, hc₁, hcolumn₁⟩ := step_mark hrest ((startsToken_textOf _ name).endLine.append _)
    (produceHere_key hrest henters) (Int.le_refl _)
  obtain ⟨c₂, hrun, hbelow⟩ := @runs_string c₁ (q ++ (opening ++ [.key])) c.column js true c.column
    (c.column + 2) _ name (by simp) hc₁ (by omega) hcolon
  have hsame : (flat c₂ (q ++ (opening ++ [.key]) ++ [stringToken name]) c.column js true none).unindentTo
      c.column = flat c₂ (q ++ (opening ++ [.key]) ++ [stringToken name]) c.column js true none :=
    unindentTo_of_le (Int.le_refl _)
  -- the colon is in the column of the question mark, so nothing ends in front of it
  rw [hsame, ← hbelow.column_eq] at hrun
  obtain ⟨c₃, hstep₃, hc₃, hcolumn₃⟩ := step_mark hbelow.rest_eq ((startsToken_writeHere _ _ value).append _)
    (produceHere_value hbelow.rest_eq) (Int.le_refl _)
  have hscans := @hvalue c₃ (q ++ (opening ++ [.key]) ++ [stringToken name] ++ [.value]) c.column js
    (c.column + 2) n rest (by rw [hcolumn₃, hbelow.column_eq]) (by simpa using hc₃) (by omega)
    (henters.grounded hground) hfollows
  rw [hbelow.column_eq] at hstep₃ hrun
  have hall := hscans.of_runs ((Relation.ReflTransGen.single hstep₁).trans (hrun.trans (.single hstep₃)))
  simpa using hall

/-- The properties of an object, from the first one on. -/
theorem scans_properties {properties : Properties Tree}
    (hvalues : ∀ property ∈ properties, ScansHere property.2 ∧ ScansBehindKey property.2)
    (hne : properties ≠ []) {c : Cursor} (hcolumn : c.column = col)
    (hrest : c.rest = writeProperties [] col properties ++ (List.replicate n ' ' ++ rest))
    (henters : Enters .blockMappingStart col i is opening closing js) (hground : Grounded i is)
    (hfollows : Follows i n rest) :
    Scans (flat c q i is true none) i is (q ++ (opening ++ propertyTokens properties ++ closing)) n rest := by
  induction properties generalizing c q i is opening closing js with
  | nil => exact absurd rfl hne
  | cons property more ih =>
    obtain ⟨hvalue, hmore⟩ := List.forall_mem_cons.1 hvalues
    obtain ⟨name, value⟩ := property
    -- the property alone, whatever comes behind it
    have hone : ∀ {n' : Nat} {rest' : List Char}, c.rest = writeProperties [] col [(name, value)] ++
        (List.replicate n' ' ' ++ rest') → Follows col n' rest' →
        Scans (flat c q i is true none) col js (q ++ (opening ++ propertyTokens [(name, value)])) n' rest' := by
      intro n' rest' htext hbehind
      cases hkey : isSimpleKey name with
      | true =>
        have hscans := scans_simpleProperty (q := q) hkey hvalue.2 hcolumn
          (by simpa [writeProperties, hkey] using htext) henters hground hbehind
        simpa [propertyTokens, hkey] using hscans
      | false =>
        have hscans := scans_apartProperty (q := q) hvalue.1 hcolumn
          (by simpa [writeProperties, hkey, spaces] using htext) henters hground hbehind
        simpa [propertyTokens, hkey] using hscans
    have hfollows' := hfollows.mono henters.le
    cases more with
    | nil =>
      have hclosed := (hone hrest hfollows').close henters hground
      simpa using hclosed
    | cons next more =>
      have hbehind : Follows col col (writeProperties [] col (next :: more) ++
          (List.replicate n ' ' ++ rest)) :=
        ⟨(startsToken_writeProperties col next more).append _, .inl (Int.le_refl _)⟩
      have hrest' : c.rest = writeProperties [] col [(name, value)] ++ (List.replicate col ' ' ++
          (writeProperties [] col (next :: more) ++ (List.replicate n ' ' ++ rest))) := by
        rw [hrest, writeProperties_cons, spaces]
        simp only [List.append_assoc]
      obtain ⟨c', hrun, hc', hcolumn'⟩ := (hone hrest' hbehind).level
      -- from the second property on, the object is open already
      have hscans := @ih (q ++ (opening ++ propertyTokens [(name, value)])) [] [] col js js hmore (by simp) c'
        hcolumn' hc' .level (henters.grounded hground) hfollows'
      have hclosed := (hscans.of_runs hrun).close henters hground
      simpa [propertyTokens] using hclosed

/-! ## All values -/

/-- A scalar on the current line. -/
theorem scansHere_scalar (value : Scalar) : ScansHere (.scalar value) := by
  intro c q i is col n rest hcolumn hrest hcol hground hfollows
  rw [writeHere] at hrest
  obtain ⟨c', hrun, hbelow⟩ :=
    @runs_scalar c q i is true n _ rest value rfl hrest (by omega) hfollows
  simpa [tokensOf] using scans_of_runs hrun hbelow hground

/-- An array on the current line, where it opens a level of indentation. -/
theorem scansHere_array {items : List Tree} (hitems : ∀ item ∈ items, ScansHere item) :
    ScansHere (.array items) := by
  intro c q i is col n rest hcolumn hrest hcol hground hfollows
  rw [writeHere] at hrest
  cases items with
  | nil =>
    have hcol' : i < c.column := by omega
    obtain ⟨c', hrun, hbelow⟩ := runs_empty (q := q) .brackets hrest hfollows.head hcol'
    simpa [tokensOf] using scans_of_runs hrun hbelow hground
  | cons item more =>
    have hscans := scans_items (q := q) hitems (by simp) hcolumn hrest (.opens hcol) hground hfollows
    simpa [tokensOf] using hscans

/-- An object on the current line, where it opens a level of indentation. -/
theorem scansHere_object {properties : Properties Tree}
    (hvalues : ∀ property ∈ properties, ScansHere property.2 ∧ ScansBehindKey property.2) :
    ScansHere (.object properties) := by
  intro c q i is col n rest hcolumn hrest hcol hground hfollows
  rw [writeHere] at hrest
  cases properties with
  | nil =>
    have hcol' : i < c.column := by omega
    obtain ⟨c', hrun, hbelow⟩ := runs_empty (q := q) .braces hrest hfollows.head hcol'
    simpa [tokensOf] using scans_of_runs hrun hbelow hground
  | cons property more =>
    have hscans := scans_properties (q := q) hvalues (by simp) hcolumn hrest (.opens hcol) hground hfollows
    simpa [tokensOf] using hscans

/-- A scalar behind its key, a space further on. -/
theorem scansBehindKey_scalar (value : Scalar) : ScansBehindKey (.scalar value) := by
  intro c q is col n rest hcolumn hrest hground hfollows
  rw [writeBehindKey, List.cons_append] at hrest
  have hcolumn' := Cursor.column_skip (a := [' ']) hrest
  rw [List.length_singleton] at hcolumn'
  obtain ⟨c', hrun, hbelow⟩ := @runs_scalar (c.skip 1) q col is false n _ rest value (by simp)
    (Cursor.rest_skip_one hrest) (by omega) hfollows
  refine ⟨_, approach_space hrest ((startsToken_scalarText _ value).endLine.append _) (by omega), ?_⟩
  simpa [levelTokens] using scans_of_runs hrun hbelow hground

/-- An empty collection behind its key. -/
theorem scansBehindKey_empty {start stop : Token} {left right : Char} {c : Cursor}
    (hmarks : EmptyMarks left right start stop) (hcolumn : col < c.column) (hground : Grounded col is)
    (hrest : c.rest = ' ' :: left :: right :: '\n' :: (List.replicate n ' ' ++ rest))
    (hfollows : Follows col n rest) :
    ∃ b, (flat c q col is false none).approach = .ok b ∧ Scans b col is (q ++ [start, stop]) n rest := by
  have hcolumn' := Cursor.column_skip (a := [' ']) hrest
  rw [List.length_singleton] at hcolumn'
  have hcol : (col : Int) < (c.skip 1).column := by omega
  obtain ⟨c', hrun, hbelow⟩ := runs_empty (q := q) hmarks (Cursor.rest_skip_one hrest) hfollows.head hcol
  exact ⟨_, approach_space hrest (by simpa using hmarks.startsToken.1) (by omega),
    scans_of_runs hrun hbelow hground⟩

/-- An array behind its key, on the lines below. -/
theorem scansBehindKey_array {items : List Tree} (hitems : ∀ item ∈ items, ScansHere item) :
    ScansBehindKey (.array items) := by
  intro c q is col n rest hcolumn hrest hground hfollows
  rw [writeBehindKey] at hrest
  cases items with
  | nil =>
    simpa [levelTokens] using
      scansBehindKey_empty .brackets hcolumn hground hrest hfollows
  | cons item more =>
    -- the items are level with the key, so nothing opens and nothing ends
    have hrest' : c.rest = '\n' :: (List.replicate col ' ' ++ (writeItems [] col (item :: more) ++
        (List.replicate n ' ' ++ rest))) := by
      rw [hrest, writeItems_lead]
      simp [spaces]
    obtain ⟨c', happroach, hbelow⟩ := @approach_newline c q col is false none col _ hrest'
      ((startsToken_writeItems col item more).append _) (by simp [GoesBefore])
    have hsame : (flat c' q col is true none).unindentTo col = flat c' q col is true none :=
      unindentTo_of_le (Int.le_refl _)
    rw [hsame] at happroach
    have hscans := scans_items (q := q) hitems (by simp) hbelow.column_eq hbelow.rest_eq .level hground hfollows
    exact ⟨_, happroach, by simpa [levelTokens] using hscans⟩

/-- An object behind its key, on the lines below and further in. -/
theorem scansBehindKey_object {properties : Properties Tree}
    (hvalues : ∀ property ∈ properties, ScansHere property.2 ∧ ScansBehindKey property.2) :
    ScansBehindKey (.object properties) := by
  intro c q is col n rest hcolumn hrest hground hfollows
  rw [writeBehindKey] at hrest
  cases properties with
  | nil =>
    simpa [levelTokens] using
      scansBehindKey_empty .braces hcolumn hground hrest hfollows
  | cons property more =>
    -- the properties are indented more deeply than the key, so a new object opens
    have hrest' : c.rest = '\n' :: (List.replicate (col + 2) ' ' ++
        (writeProperties [] (col + 2) (property :: more) ++ (List.replicate n ' ' ++ rest))) := by
      rw [hrest, writeProperties_lead]
      simp [spaces]
    obtain ⟨c', happroach, hbelow⟩ := @approach_newline c q col is false none (col + 2) _ hrest'
      ((startsToken_writeProperties (col + 2) property more).append _) (by simp [GoesBefore])
    have hsame : (flat c' q col is true none).unindentTo (col + 2 : Nat) = flat c' q col is true none :=
      unindentTo_of_le (by simp only [flat]; omega)
    rw [hsame] at happroach
    have hscans := scans_properties (q := q) hvalues (by simp) hbelow.column_eq hbelow.rest_eq
      (.opens (by omega)) hground hfollows
    exact ⟨_, happroach, by simpa [levelTokens] using hscans⟩

/-- The text of every value has the value's tokens. -/
theorem scans (value : Tree) : ScansHere value ∧ ScansBehindKey value := by
  induction value using Tree.induct with
  | scalar value => exact ⟨scansHere_scalar value, scansBehindKey_scalar value⟩
  | array items ih =>
    have hitems : ∀ item ∈ items, ScansHere item := fun item hmem => (ih item hmem).1
    exact ⟨scansHere_array hitems, scansBehindKey_array hitems⟩
  | object properties ih => exact ⟨scansHere_object ih, scansBehindKey_object ih⟩

end PartialResponse.Yaml
