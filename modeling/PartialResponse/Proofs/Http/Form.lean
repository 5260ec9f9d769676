import Mathlib.Data.List.TakeWhile
import PartialResponse.Http.Request
import PartialResponse.Proofs.Text.Digits
import PartialResponse.Proofs.Text.Utf8

/-!
# PartialResponse.Proofs.Http.Form — written queries read back

A query can be written in many ways: a character as it is or as the bytes that encode
it, a space as a plus, the digits of bytes in either case, an item with an empty value
without its equals sign, and empty items in between. `WritesQuery` allows all of them.
Whichever is chosen, the items of the query are the names and values that have been
written (`items_of_writesQuery`), so a request carries the first value that has the
name of the parameter.
-/

namespace PartialResponse.Http

namespace Form

/-! ## Ways to write -/

/-- The characters that mean something else than themselves in names and values. -/
def isSpecial (c : Char) : Bool :=
  c == '&' || c == '=' || c == '+' || c == '%'

/-- The hexadecimal digits of a number below 16. -/
inductive WritesDigit (n : Nat) : Char → Prop
  | lower : WritesDigit n (Text.hexDigit n)
  | upper : WritesDigit n (Text.upperHexDigit n)

/-- The ways to write bytes with percent signs. -/
inductive WritesBytes : List UInt8 → List Char → Prop
  | nil : WritesBytes [] []
  | cons {b : UInt8} {bytes : List UInt8} {high low : Char} {text : List Char} :
      WritesDigit (b.toNat / 16) high → WritesDigit (b.toNat % 16) low → WritesBytes bytes text →
      WritesBytes (b :: bytes) ('%' :: high :: low :: text)

/-- The ways to write a character. -/
inductive WritesChar : Char → List Char → Prop
  | plain {c : Char} : isSpecial c = false → WritesChar c [c]
  | plus : WritesChar ' ' ['+']
  | encoded {c : Char} {text : List Char} :
      WritesBytes (Text.Utf8.encodeChar c) text → WritesChar c text

/-- The ways to write a name or a value, character by character. -/
inductive WritesText : List Char → List Char → Prop
  | nil : WritesText [] []
  | cons {c : Char} {more front back : List Char} :
      WritesChar c front → WritesText more back → WritesText (c :: more) (front ++ back)

/-- The ways to write a name and a value. A name that is not empty can stand alone if its value is
empty. -/
inductive WritesItem : String × String → List Char → Prop
  | both {name value : String} {front back : List Char} :
      WritesText name.toList front → WritesText value.toList back →
      WritesItem (name, value) (front ++ '=' :: back)
  | bare {name : String} {front : List Char} :
      name ≠ "" → WritesText name.toList front → WritesItem (name, "") front

/-- The ways to write names and values as items, with empty items anywhere. -/
inductive WritesItems : List (String × String) → List (List Char) → Prop
  | nil : WritesItems [] []
  | gap {pairs : List (String × String)} {texts : List (List Char)} :
      WritesItems pairs texts → WritesItems pairs ([] :: texts)
  | cons {pair : String × String} {pairs : List (String × String)} {text : List Char}
      {texts : List (List Char)} :
      WritesItem pair text → WritesItems pairs texts → WritesItems (pair :: pairs) (text :: texts)

/-- The ways to write a query: items with ampersands between them. -/
def WritesQuery (pairs : List (String × String)) (query : String) : Prop :=
  ∃ texts, WritesItems pairs texts ∧ query.toList = ['&'].intercalate texts

/-! ## Names and values -/

/-- A digit in either case has its value. -/
theorem hexValue?_of_writesDigit {n : Nat} {c : Char} (hsmall : n < 16) (h : WritesDigit n c) :
    Text.hexValue? c = some n := by
  cases h with
  | lower => exact Text.hexValue?_hexDigit hsmall
  | upper => exact Text.hexValue?_upperHexDigit hsmall

/-- Two digits read back as the byte. -/
theorem hexNumber?_of_writesDigit {b : UInt8} {high low : Char}
    (hwritesHigh : WritesDigit (b.toNat / 16) high) (hwritesLow : WritesDigit (b.toNat % 16) low) :
    Text.hexNumber? [high, low] = some b.toNat := by
  have hbyte : b.toNat < 256 := b.toNat_lt
  have hfirst := hexValue?_of_writesDigit (by omega) hwritesHigh
  have hsecond := hexValue?_of_writesDigit (by omega) hwritesLow
  have hwhole : 16 * (b.toNat / 16) + b.toNat % 16 = b.toNat := Nat.div_add_mod _ _
  simp [Text.hexNumber?, hfirst, hsecond, hwhole]

/-- Bytes that are written with percent signs read back. -/
theorem bytes_of_writesBytes {bs : List UInt8} {text : List Char} (h : WritesBytes bs text)
    (rest : List Char) : bytes (text ++ rest) = bs ++ bytes rest := by
  induction h with
  | nil => rfl
  | @cons b bs high low text hwritesHigh hwritesLow _ ih =>
    have hsame : Text.Utf8.byte b.toNat = b := UInt8.ofNat_toNat
    simp only [List.cons_append, bytes, hexNumber?_of_writesDigit hwritesHigh hwritesLow, hsame, ih]

/-- A character reads back as the bytes that encode it, however it is written. -/
theorem bytes_of_writesChar {c : Char} {text : List Char} (h : WritesChar c text)
    (rest : List Char) : bytes (text ++ rest) = Text.Utf8.encodeChar c ++ bytes rest := by
  cases h with
  | plain hnotSpecial =>
    simp only [isSpecial, Bool.or_eq_false_iff, beq_eq_false_iff_ne] at hnotSpecial
    -- neither a plus nor a percent sign, so the character is its own
    obtain ⟨⟨-, hnotPlus⟩, hnotPercent⟩ := hnotSpecial
    rw [List.singleton_append, bytes]
    · exact hnotPlus
    · rintro _ _ _ rfl
      exact absurd rfl hnotPercent
  | plus => rfl
  | encoded hwrites => exact bytes_of_writesBytes hwrites rest

/-- A text reads back as the bytes that encode it. -/
theorem bytes_of_writesText {t text : List Char} (h : WritesText t text) :
    bytes text = Text.Utf8.encode t := by
  induction h with
  | nil => rfl
  | @cons c more front back hwrites _ ih =>
    rw [bytes_of_writesChar hwrites, ih]
    rfl

/-- A name or value reads back. -/
theorem decode_of_writesText {s : String} {text : List Char} (h : WritesText s.toList text) :
    decode text = s := by
  rw [decode, bytes_of_writesText h, Text.Utf8.decodeLossy_encode, String.ofList_toList]

/-! ## What does not stand in names and values -/

/-- No digit is an ampersand or an equals sign. -/
theorem ne_of_writesDigit {n : Nat} {c : Char} (hsmall : n < 16) (h : WritesDigit n c) :
    c ≠ '&' ∧ c ≠ '=' := by
  -- neither is a hexadecimal digit
  have hvalue := hexValue?_of_writesDigit hsmall h
  constructor <;> rintro rfl <;> cases hvalue

/-- Written bytes hold no ampersand and no equals sign. -/
theorem not_mem_of_writesBytes {bs : List UInt8} {text : List Char} (h : WritesBytes bs text) :
    '&' ∉ text ∧ '=' ∉ text := by
  induction h with
  | nil => exact ⟨List.not_mem_nil, List.not_mem_nil⟩
  | @cons b bs high low text hwritesHigh hwritesLow _ ih =>
    have hbyte : b.toNat < 256 := b.toNat_lt
    have hfirst := ne_of_writesDigit (by omega) hwritesHigh
    have hsecond := ne_of_writesDigit (by omega) hwritesLow
    simp [hfirst.1.symm, hfirst.2.symm, hsecond.1.symm, hsecond.2.symm, ih]

/-- A written text holds no ampersand and no equals sign, as both are written as bytes. -/
theorem not_mem_of_writesText {t text : List Char} (h : WritesText t text) :
    '&' ∉ text ∧ '=' ∉ text := by
  induction h with
  | nil => exact ⟨List.not_mem_nil, List.not_mem_nil⟩
  | @cons c more front back hwrites _ ih =>
    have hown : '&' ∉ front ∧ '=' ∉ front := by
      cases hwrites with
      | plain hnotSpecial =>
        simp only [isSpecial, Bool.or_eq_false_iff, beq_eq_false_iff_ne] at hnotSpecial
        simp [Ne.symm hnotSpecial.1.1.1, Ne.symm hnotSpecial.1.1.2]
      | plus => simp
      | encoded hwrites => exact not_mem_of_writesBytes hwrites
    simp [hown, ih]

theorem ne_equals_of_writesText {t text : List Char} (h : WritesText t text) :
    ∀ c ∈ text, (c != '=') = true := by
  intro c hmem
  have hother : c ≠ '=' := fun heq => (not_mem_of_writesText h).2 (heq ▸ hmem)
  simpa using hother

/-- Something is written for a text that is not empty. -/
theorem ne_nil_of_writesText {t text : List Char} (h : WritesText t text) (hnonempty : t ≠ []) :
    text ≠ [] := by
  rintro rfl
  have hread := bytes_of_writesText h
  have hback := Text.Utf8.parts_encode t
  rw [← hread] at hback
  cases t with
  | nil => exact hnonempty rfl
  | cons c more => cases hback

/-! ## Items -/

/-- An item is read as its name and its value. -/
theorem item_of_writesItem {pair : String × String} {text : List Char} (h : WritesItem pair text) :
    item text = pair := by
  cases h with
  | @both name value front back hwritesName hwritesValue =>
    -- the first equals sign is the one behind the name
    have hapart := ne_equals_of_writesText hwritesName
    have hfirst : (front ++ '=' :: back).takeWhile (· != '=') = front := by
      rw [List.takeWhile_append_of_pos hapart]
      simp
    have hsecond : ((front ++ '=' :: back).dropWhile (· != '=')).drop 1 = back := by
      rw [List.dropWhile_append_of_pos hapart]
      simp
    rw [item, hfirst, hsecond, decode_of_writesText hwritesName, decode_of_writesText hwritesValue]
  | @bare name _ _ hwritesName =>
    have hapart := ne_equals_of_writesText hwritesName
    have hfirst : text.takeWhile (· != '=') = text := List.takeWhile_eq_self_iff.mpr hapart
    have hsecond : text.dropWhile (· != '=') = [] := List.dropWhile_eq_nil_iff.mpr hapart
    rw [item, hfirst, hsecond, decode_of_writesText hwritesName]
    rfl

/-- An item is not empty, so it is not dropped. -/
theorem ne_nil_of_writesItem {pair : String × String} {text : List Char}
    (h : WritesItem pair text) : text ≠ [] := by
  cases h with
  | both _ _ => simp
  | bare hnonempty hwritesName => exact ne_nil_of_writesText hwritesName (by simpa using hnonempty)

/-- An item ends at the next ampersand. -/
theorem not_mem_of_writesItem {pair : String × String} {text : List Char}
    (h : WritesItem pair text) : '&' ∉ text := by
  cases h with
  | both hwritesName hwritesValue =>
    simp [not_mem_of_writesText hwritesName, not_mem_of_writesText hwritesValue]
  | bare _ hwritesName => exact (not_mem_of_writesText hwritesName).1

theorem not_mem_of_writesItems {pairs : List (String × String)} {texts : List (List Char)}
    (h : WritesItems pairs texts) : ∀ text ∈ texts, '&' ∉ text := by
  induction h with
  | nil => exact List.forall_mem_nil _
  | gap _ ih => exact List.forall_mem_cons.mpr ⟨List.not_mem_nil, ih⟩
  | cons hwrites _ ih => exact List.forall_mem_cons.mpr ⟨not_mem_of_writesItem hwrites, ih⟩

/-- Without the empty ones, the items are those that have been written. -/
theorem map_item_of_writesItems {pairs : List (String × String)} {texts : List (List Char)}
    (h : WritesItems pairs texts) : (texts.filter (!·.isEmpty)).map item = pairs := by
  induction h with
  | nil => rfl
  | gap _ ih => exact ih
  | cons hwrites _ ih =>
    rw [List.filter_cons_of_pos (by simpa using ne_nil_of_writesItem hwrites), List.map_cons,
      item_of_writesItem hwrites, ih]

/-! ## Queries -/

/-- Items are what the ampersands leave. -/
theorem split_eq_splitOn (separator : Char) (text : List Char) :
    split separator text = text.splitOn separator := by
  induction text with
  | nil => rfl
  | cons c rest ih =>
    rw [split, List.splitOn_cons_eq_if_modifyHead, ih]
    by_cases hsame : c = separator
    · simp [hsame]
    · obtain ⟨part, more, hparts⟩ := List.exists_cons_of_ne_nil (List.splitOn_ne_nil separator rest)
      rw [if_neg hsame, if_neg (by simpa using hsame), hparts]
      rfl

/-- A written query has the items that have been written. -/
theorem items_of_writesQuery {pairs : List (String × String)} {query : String}
    (h : WritesQuery pairs query) : items query.toList = pairs := by
  obtain ⟨texts, hwrites, hwritten⟩ := h
  rw [items, hwritten, split_eq_splitOn]
  by_cases hnone : texts = []
  · subst hnone
    cases hwrites
    rfl
  · rw [List.splitOn_intercalate _ (not_mem_of_writesItems hwrites) hnone]
    exact map_item_of_writesItems hwrites

/-- What has no special characters can be written as it is. -/
theorem writesText_self {t : List Char} (hplain : ∀ c ∈ t, isSpecial c = false) : WritesText t t := by
  induction t with
  | nil => exact .nil
  | cons c more ih =>
    obtain ⟨hfirst, hothers⟩ := List.forall_mem_cons.mp hplain
    exact .cons (.plain hfirst) (ih hothers)

end Form

namespace SelectorRequest

/-- **A request carries the first value that is written for its parameter.** However a query is
written, the selector text is the value of the first pair with the name of the parameter, and there
is none just if no pair has that name. So a value that is written empty selects nothing, and does
not count as absent. -/
theorem ofQuery?_written {pairs : List (String × String)} {query : String}
    (hwritten : Form.WritesQuery pairs query) (param : String) :
    let r := ofQuery? (some query) param
    (∀ before value after, pairs = before ++ (param, value) :: after →
      (∀ pair ∈ before, pair.1 ≠ param) →
        r.text = some value ∧ (value = "" → r.outcome = .selected .empty)) ∧
    (r.text = none ↔ ∀ pair ∈ pairs, pair.1 ≠ param) ∧
    (r.outcome = .absent ↔ r.text = none) := by
  intro r
  have htext : r.text = pairs.lookup param := by
    show Form.value? query param = _
    rw [Form.value?, Form.items_of_writesQuery hwritten]
  have hmissing {ps : List (String × String)} :
      ps.lookup param = none ↔ ∀ pair ∈ ps, pair.1 ≠ param :=
    List.lookup_eq_none_iff.trans (forall₂_congr fun pair _ => by rw [bne_iff_ne, ne_comm])
  refine ⟨?_, ?_, ?_⟩
  · rintro before value after rfl hothers
    have hfirst : r.text = some value := by
      rw [htext, List.lookup_append, hmissing.mpr hothers, List.lookup_cons_self]
      rfl
    refine ⟨hfirst, ?_⟩
    rintro rfl
    rw [outcome_eq, hfirst]
    rfl
  · rw [htext, hmissing]
  · rw [outcome_eq]
    cases r.text with
    | none => exact ⟨fun _ => rfl, fun _ => rfl⟩
    | some t =>
      rw [Outcome.ofText?]
      -- a text is selected from or malformed, and so not absent
      cases Selection.parse t <;> exact ⟨nofun, nofun⟩

/-- Four pairs, two of them with the same name. -/
def fourPairs : List (String × String) :=
  [("page", "2"), ("fields", "a/b é"), ("fields", "z"), ("all", "")]

/-- A query with empty items, two ways to write a space, and digits in both cases. -/
theorem ofQuery?_written_fourPairs :
    let query := "&page=2&&f%69elds=a%2fb+%C3%a9&fields=z&all&"
    Form.WritesQuery fourPairs query ∧
      (ofQuery? (some query) "fields").text = some "a/b é" ∧
      (ofQuery? (some query) "all").outcome = .selected .empty ∧
      (ofQuery? (some query) "page ").outcome = .absent := by
  intro query
  have hplain {t : String} (h : t.toList.all (!Form.isSpecial ·) = true) :
      Form.WritesText t.toList t.toList :=
    Form.writesText_self (by simpa using h)
  have hletter : Form.WritesChar 'i' ['%', '6', '9'] :=
    .encoded (.cons (b := 0x69) .lower .lower .nil)
  have hslash : Form.WritesChar '/' ['%', '2', 'f'] :=
    .encoded (.cons (b := 0x2F) .lower .lower .nil)
  have haccented : Form.WritesChar 'é' ['%', 'C', '3', '%', 'a', '9'] :=
    .encoded (.cons (b := 0xC3) .upper .lower (.cons (b := 0xA9) .lower .lower .nil))
  have hname : Form.WritesText "fields".toList "f%69elds".toList :=
    .cons (.plain (c := 'f') (by decide)) (.cons hletter (hplain (t := "elds") (by decide)))
  have hvalue : Form.WritesText "a/b é".toList "a%2fb+%C3%a9".toList :=
    .cons (.plain (c := 'a') (by decide)) (.cons hslash (.cons (.plain (c := 'b') (by decide))
      (.cons .plus (.cons haccented .nil))))
  have hwritten : Form.WritesQuery fourPairs query :=
    ⟨_, .gap (.cons (.both (hplain (by decide)) (hplain (by decide))) (.gap (.cons (.both hname hvalue)
      (.cons (.both (hplain (by decide)) (hplain (by decide))) (.cons (.bare (by decide) (hplain (by decide)))
      (.gap .nil)))))), by decide⟩
  have hfields := (ofQuery?_written hwritten "fields").1 [("page", "2")] "a/b é" _ rfl (by decide)
  have hall := (ofQuery?_written hwritten "all").1
    [("page", "2"), ("fields", "a/b é"), ("fields", "z")] "" [] rfl (by decide)
  obtain ⟨-, hmissing, habsent⟩ := ofQuery?_written hwritten "page "
  exact ⟨hwritten, hfields.1, hall.2 rfl, habsent.mpr (hmissing.mpr (by decide))⟩

end SelectorRequest

end PartialResponse.Http
