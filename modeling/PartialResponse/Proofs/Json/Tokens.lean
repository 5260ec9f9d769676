import PartialResponse.Proofs.Json.Numbers
import PartialResponse.Proofs.Tree.Parts

/-!
# PartialResponse.Proofs.Json.Tokens — the tokens of written values

The text of a value is taken apart into the tokens that the value says, whatever the
layout: `tokensOf` names them, and what is put between them is white space. Strings
read back character by character, however they are escaped.
-/

namespace PartialResponse.Json

variable {c : Char} {t rest : List Char}

/-! ## Strings -/

/-- An escape sequence gives its character, and the string goes on. -/
theorem readString_escape (h : readEscape t = some (c, rest)) :
    readString ('\\' :: t) = (readString rest).map fun (cs, after) => (c :: cs, after) := by
  rw [readString]
  split
  · next c' rest' he =>
    rw [h] at he
    cases he
    rfl
  · next he =>
    rw [h] at he
    cases he

/-- A character that is not escaped stands for itself. -/
theorem readString_char (hquote : c ≠ '"') (hescape : c ≠ '\\') (hcontrol : ¬c.toNat < 0x20) :
    readString (c :: t) = (readString t).map fun (cs, after) => (c :: cs, after) := by
  rw [readString]
  · rw [if_neg hcontrol]
  · exact hquote
  · exact hescape

/-- A character below the code units that come in pairs, by its four hexadecimal digits. -/
theorem readUnicodeEscape_hexText (h : c.toNat < 0xD800) :
    readUnicodeEscape (Text.hexText Text.hexDigit 4 c.toNat ++ t) = some (c, t) := by
  have hunit : readCodeUnit (Text.hexText Text.hexDigit 4 c.toNat ++ t) =
      (Text.hexNumber? (Text.hexText Text.hexDigit 4 c.toNat)).map (·, t) := rfl
  rw [Text.hexNumber?_hexText Text.hexValue?_hexDigit, Nat.mod_eq_of_lt (by omega)] at hunit
  -- neither half of a pair, so no second unit is looked for
  have hlow : ¬(0xDC00 ≤ c.toNat ∧ c.toNat < 0xE000) := by omega
  have hhigh : ¬(0xD800 ≤ c.toNat ∧ c.toNat < 0xDC00) := by omega
  rw [readUnicodeEscape, hunit, Option.map_some, Option.bind_eq_bind, Option.bind_some]
  dsimp only
  rw [if_neg hlow, if_neg hhigh, Char.ofNat_toNat]

/-- A character of a string reads back, escaped or not. -/
theorem readString_escaped (c : Char) (t : List Char) :
    readString (escape c ++ t) = (readString t).map fun (cs, after) => (c :: cs, after) := by
  unfold escape
  split_ifs with hquote hbackslash hb hf hn hr ht hcontrol
  all_goals try subst c
  -- the short escapes
  case pos | pos | pos | pos | pos | pos | pos => exact readString_escape rfl
  case pos =>
    have hread : readEscape ('u' :: (Text.hexText Text.hexDigit 4 c.toNat ++ t)) = some (c, t) :=
      readUnicodeEscape_hexText (by omega)
    exact readString_escape hread
  case neg => exact readString_char hquote hbackslash hcontrol

/-- A string reads back up to its closing quote. -/
@[simp]
theorem readString_quoted (cs rest : List Char) :
    readString (cs.flatMap escape ++ '"' :: rest) = some (cs, rest) := by
  induction cs with
  | nil => simp [readString]
  | cons c cs ih => rw [List.flatMap_cons, List.append_assoc, readString_escaped, ih, Option.map_some]

/-! ## Single tokens -/

namespace Token

/-- A string in quotes is one token. -/
@[simp]
theorem read_quoted (s : String) (rest : List Char) :
    read (quoted s ++ rest) = some (scalar (.string s), rest) := by
  have hstring := readString_quoted s.toList rest
  simp [quoted, read, hstring]

/-- Behind a digit or a minus sign there is a number or nothing. -/
theorem read_eq_readNumber (h : c.isDigit = true ∨ c = '-') :
    read (c :: t) = (readNumber (c :: t)).map fun (n, rest) => (scalar (.number n), rest) := by
  unfold read
  split
  case h_11 => rfl
  -- no other token starts with a digit or a minus sign
  all_goals
    next heq =>
    cases heq
    simp at h

/-- A scalar is read in front of a text that does not go on with it. -/
theorem read_scalarText {value : Scalar} (h : ∀ x, value = .number (.float x) → ReadsBack x)
    (hrest : Apart rest) : read (scalarText value ++ rest) = some (scalar value, rest) := by
  cases value with
  | null => rfl
  | bool b => cases b <;> rfl
  | string s => exact read_quoted s rest
  | number n =>
    have hread : readNumber (n.text floatNotation ++ rest) = some (n, rest) :=
      readNumber_text (fun x hx => h x (congrArg Scalar.number hx)) hrest
    obtain ⟨c, more, htext, hc⟩ := exists_head_of_readNumber hread
    rw [scalarText, htext, read_eq_readNumber hc, ← htext, hread]
    rfl

/-! ## Tokens in a row -/

/-- Tokens in a row: white space is passed over, then there is an end or a token with the others
behind it. -/
theorem ofText?_eq (t : List Char) :
    ofText? t = if t.dropWhile isSpace = [] then some []
      else (read (t.dropWhile isSpace)).bind fun (token, rest) => (ofText? rest).map (token :: ·) := by
  rw [ofText?]
  dsimp only
  split
  · rfl
  · split
    · next hread => rw [hread, Option.bind_some]
    · next hread => rw [hread, Option.bind_none]

@[simp]
theorem ofText?_nil : ofText? [] = some [] := by
  rw [ofText?_eq]
  rfl

/-- White space in front of a token counts for nothing. -/
theorem ofText?_space (h : isSpace c = true) : ofText? (c :: t) = ofText? t := by
  rw [ofText?_eq, ofText?_eq t, List.dropWhile_cons_of_pos h]

theorem ofText?_spaces {spaces : List Char} (h : ∀ c ∈ spaces, isSpace c = true) :
    ofText? (spaces ++ t) = ofText? t := by
  induction spaces with
  | nil => rfl
  | cons c spaces ih =>
    obtain ⟨hc, hspaces⟩ := List.forall_mem_cons.1 h
    rw [List.cons_append, ofText?_space hc, ih hspaces]

/-- No token starts with white space. -/
theorem read_space (h : isSpace c = true) : read (c :: t) = none := by
  simp only [isSpace, Bool.or_eq_true, beq_iff_eq] at h
  rcases h with ((rfl | rfl) | rfl) | rfl <;> rfl

/-- A token that can be read is the first one. It needs no white space in front of it. -/
theorem ofText?_of_read {token : Token} (h : read t = some (token, rest)) :
    ofText? t = (ofText? rest).map (token :: ·) := by
  cases t with
  | nil => simp [read, readNumber, readMagnitude] at h
  | cons c t =>
    have hspace : ¬isSpace c = true := by
      intro hc
      rw [read_space hc] at h
      cases h
    have hstart : (c :: t).dropWhile isSpace = c :: t := List.dropWhile_cons_of_neg hspace
    rw [ofText?_eq, hstart, if_neg (List.cons_ne_nil c t), h, Option.bind_some]

/-- A line break with its indentation is white space, in a layout that has any. -/
@[simp]
theorem ofText?_line (layout : Layout) (level : Nat) (t : List Char) :
    ofText? (layout.line level ++ t) = ofText? t := by
  apply ofText?_spaces
  cases layout with
  | compact => simp [Layout.line]
  | pretty indent =>
    rw [Layout.line]
    exact List.forall_mem_cons.2 ⟨rfl, fun c hc => by rw [List.eq_of_mem_replicate hc]; rfl⟩

/-- A colon, with the space that a layout puts behind it. -/
@[simp]
theorem ofText?_colon (layout : Layout) (t : List Char) :
    ofText? (layout.colon ++ t) = (ofText? t).map (colon :: ·) := by
  cases layout with
  | compact => exact ofText?_of_read rfl
  | pretty indent =>
    have hcolon : ofText? (':' :: ' ' :: t) = (ofText? (' ' :: t)).map (colon :: ·) := ofText?_of_read rfl
    have hspace : ofText? (' ' :: t) = ofText? t := ofText?_space rfl
    rw [Layout.colon, List.cons_append, List.cons_append, List.nil_append, hcolon, hspace]

/-- A string in front of other tokens. -/
@[simp]
theorem ofText?_quoted (s : String) (t : List Char) :
    ofText? (quoted s ++ t) = (ofText? t).map (scalar (.string s) :: ·) :=
  ofText?_of_read (read_quoted s t)

end Token

/-! ## Tokens of a value -/

mutual

/-- The tokens of a value. -/
def tokensOf : Tree → List Token
  | .scalar value => [.scalar value]
  | .array [] => [.openArray, .closeArray]
  | .array (item :: rest) => .openArray :: (tokensOf item ++ (itemTokens rest ++ [.closeArray]))
  | .object [] => [.openObject, .closeObject]
  | .object ((name, value) :: rest) =>
    .openObject :: .scalar (.string name) :: .colon ::
      (tokensOf value ++ (propertyTokens rest ++ [.closeObject]))

/-- The tokens of the items behind the first one. -/
def itemTokens : List Tree → List Token
  | [] => []
  | item :: rest => .comma :: (tokensOf item ++ itemTokens rest)

/-- The tokens of the properties behind the first one. -/
def propertyTokens : Properties Tree → List Token
  | [] => []
  | (name, value) :: rest =>
    .comma :: .scalar (.string name) :: .colon :: (tokensOf value ++ propertyTokens rest)

end

/-- Every value has a token. -/
theorem tokensOf_ne_nil (value : Tree) : tokensOf value ≠ [] := by
  cases value with
  | scalar value => simp [tokensOf]
  | array items => cases items <;> simp [tokensOf]
  | object properties => cases properties <;> simp [tokensOf]

/-- Whether the text of a value has the tokens of the value, at any level and in front of any text that
does not go on with it. -/
def Lexes (layout : Layout) (value : Tree) : Prop :=
  ∀ level rest, Apart rest →
    Token.ofText? (write layout level value ++ rest) = (Token.ofText? rest).map (tokensOf value ++ ·)

/-- A line break does not go on with a scalar. -/
theorem apart_line (layout : Layout) (level : Nat) : Apart (layout.line level) := by
  cases layout with
  | compact => exact apart_nil
  | pretty indent => exact apart_cons rfl

/-- What follows an item starts with a comma. -/
theorem apart_writeItems (layout : Layout) (level : Nat) (items : List Tree) :
    Apart (writeItems layout level items) := by
  cases items with
  | nil => exact apart_nil
  | cons item more => exact apart_cons rfl

/-- What follows a property starts with a comma. -/
theorem apart_writeProperties (layout : Layout) (level : Nat) (properties : Properties Tree) :
    Apart (writeProperties layout level properties) := by
  cases properties with
  | nil => exact apart_nil
  | cons property more => exact apart_cons rfl

/-- The items behind the first one, each behind a comma and a line break. -/
theorem ofText?_writeItems {layout : Layout} {items : List Tree} (h : ∀ item ∈ items, Lexes layout item)
    (level : Nat) (hrest : Apart rest) :
    Token.ofText? (writeItems layout level items ++ rest) =
      (Token.ofText? rest).map (itemTokens items ++ ·) := by
  induction items with
  | nil => simp [writeItems, itemTokens]
  | cons item more ih =>
    obtain ⟨hitem, hmore⟩ := List.forall_mem_cons.1 h
    have hbehind : Apart (writeItems layout level more ++ rest) :=
      (apart_writeItems layout level more).append hrest
    simp only [writeItems, itemTokens, List.cons_append, List.append_assoc]
    rw [Token.ofText?_of_read rfl, Token.ofText?_line, hitem level _ hbehind, ih hmore]
    simp [Function.comp_def]

/-- The properties behind the first one, each behind a comma and a line break. -/
theorem ofText?_writeProperties {layout : Layout} {properties : Properties Tree}
    (h : ∀ property ∈ properties, Lexes layout property.2) (level : Nat) (hrest : Apart rest) :
    Token.ofText? (writeProperties layout level properties ++ rest) =
      (Token.ofText? rest).map (propertyTokens properties ++ ·) := by
  induction properties with
  | nil => simp [writeProperties, propertyTokens]
  | cons property more ih =>
    obtain ⟨hvalue, hmore⟩ := List.forall_mem_cons.1 h
    obtain ⟨name, value⟩ := property
    have hbehind : Apart (writeProperties layout level more ++ rest) :=
      (apart_writeProperties layout level more).append hrest
    simp only [writeProperties, propertyTokens, List.cons_append, List.append_assoc]
    rw [Token.ofText?_of_read rfl, Token.ofText?_line, Token.ofText?_quoted, Token.ofText?_colon,
      hvalue level _ hbehind, ih hmore]
    simp [Function.comp_def]

/-- The floats of an item are among those of the array. -/
theorem FloatsReadBack.item {items : List Tree} (h : FloatsReadBack (.array items)) :
    ∀ item ∈ items, FloatsReadBack item := by
  intro item hmem x hx
  apply h x
  rw [Tree.numbers, Tree.itemNumbers_eq_flatMap]
  exact List.mem_flatMap_of_mem hmem hx

/-- The floats of a property are among those of the object. -/
theorem FloatsReadBack.property {properties : Properties Tree} (h : FloatsReadBack (.object properties)) :
    ∀ property ∈ properties, FloatsReadBack property.2 := by
  intro property hmem x hx
  apply h x
  rw [Tree.numbers, Tree.propertyNumbers_eq_flatMap]
  exact List.mem_flatMap_of_mem hmem hx

/-- The text of a value has the tokens of the value, whatever the layout. -/
theorem lexes {value : Tree} (h : FloatsReadBack value) (layout : Layout) : Lexes layout value := by
  -- over the tree: what is put between values is white space or a token of its own
  induction value using Tree.induct with
  | scalar value =>
    intro level rest hrest
    have hfloat : ∀ x, value = .number (.float x) → ReadsBack x := by
      rintro x rfl
      exact h x List.mem_cons_self
    rw [write, tokensOf, Token.ofText?_of_read (Token.read_scalarText hfloat hrest)]
    rfl
  | array items ih =>
    intro level rest hrest
    have hitems : ∀ item ∈ items, Lexes layout item := fun item hmem => ih item hmem (h.item item hmem)
    cases items with
    | nil =>
      rw [write, tokensOf, List.cons_append, List.cons_append, Token.ofText?_of_read rfl,
        Token.ofText?_of_read rfl]
      simp [Function.comp_def]
    | cons item more =>
      obtain ⟨hitem, hmore⟩ := List.forall_mem_cons.1 hitems
      have hend : Apart (layout.line level ++ ']' :: rest) :=
        (apart_line layout level).append (apart_cons rfl)
      have hbehind : Apart (writeItems layout (level + 1) more ++ (layout.line level ++ ']' :: rest)) :=
        (apart_writeItems layout (level + 1) more).append hend
      simp only [write, tokensOf, List.cons_append, List.append_assoc, List.nil_append]
      rw [Token.ofText?_of_read rfl, Token.ofText?_line, hitem (level + 1) _ hbehind,
        ofText?_writeItems hmore (level + 1) hend, Token.ofText?_line, Token.ofText?_of_read rfl]
      simp [Function.comp_def]
  | object properties ih =>
    intro level rest hrest
    have hvalues : ∀ property ∈ properties, Lexes layout property.2 :=
      fun property hmem => ih property hmem (h.property property hmem)
    cases properties with
    | nil =>
      rw [write, tokensOf, List.cons_append, List.cons_append, Token.ofText?_of_read rfl,
        Token.ofText?_of_read rfl]
      simp [Function.comp_def]
    | cons property more =>
      obtain ⟨hvalue, hmore⟩ := List.forall_mem_cons.1 hvalues
      obtain ⟨name, value⟩ := property
      have hend : Apart (layout.line level ++ '}' :: rest) :=
        (apart_line layout level).append (apart_cons rfl)
      have hbehind : Apart (writeProperties layout (level + 1) more ++ (layout.line level ++ '}' :: rest)) :=
        (apart_writeProperties layout (level + 1) more).append hend
      simp only [write, tokensOf, List.cons_append, List.append_assoc, List.nil_append]
      rw [Token.ofText?_of_read rfl, Token.ofText?_line, Token.ofText?_quoted, Token.ofText?_colon,
        hvalue (level + 1) _ hbehind, ofText?_writeProperties hmore (level + 1) hend, Token.ofText?_line,
        Token.ofText?_of_read rfl]
      simp [Function.comp_def]

end PartialResponse.Json
