import PartialResponse.Document.Writer
import PartialResponse.Proofs.Json.Numbers
import PartialResponse.Proofs.Tree.Parts
import PartialResponse.Text.Lines

/-!
# PartialResponse.Proofs.Json.Lines — values on one line

In the compact layout the text of a value holds no control character, since strings
escape them and nothing else has any. So it is one line, whatever the value, and the
lines of values written one below the other are their texts.
-/

namespace PartialResponse

/-! ## Texts without control characters -/

/-- Whether a text holds no control characters. -/
def ControlFree (t : List Char) : Prop :=
  ∀ c ∈ t, 0x20 ≤ c.toNat

variable {a b t : List Char} {c : Char}

@[simp] theorem controlFree_nil : ControlFree [] := by
  simp [ControlFree]

@[simp] theorem controlFree_cons : ControlFree (c :: t) ↔ 0x20 ≤ c.toNat ∧ ControlFree t :=
  List.forall_mem_cons

@[simp] theorem controlFree_append : ControlFree (a ++ b) ↔ ControlFree a ∧ ControlFree b :=
  List.forall_mem_append

/-- A line break is a control character. -/
theorem ControlFree.not_mem_newline (h : ControlFree t) : '\n' ∉ t :=
  fun hmem => absurd (h '\n' hmem) (by decide)

/-! ## Numbers -/

/-- No digit is a control character. -/
theorem controlFree_digits (h : ∀ c ∈ t, c.isDigit = true) : ControlFree t := by
  intro c hc
  have hn := Text.isDigit_iff.1 (h c hc)
  omega

theorem controlFree_digitText (n : Nat) : ControlFree (Text.digitText n) :=
  controlFree_digits fun _ hc => Text.isDigit_of_mem_digitText hc

theorem controlFree_zeros (n : Nat) : ControlFree (List.replicate n '0') :=
  controlFree_digits fun c hc => by rw [List.eq_of_mem_replicate hc]; rfl

namespace Binary64.Notation

variable (n : Notation)

theorem controlFree_exponentText (e : Int) : ControlFree (n.exponentText e) := by
  have hdigits := controlFree_digitText e.natAbs
  unfold exponentText
  split_ifs <;> simp [hdigits]

theorem controlFree_decimalText (d : Decimal) : ControlFree (n.decimalText d) := by
  have hdigits := controlFree_digitText d.digits
  unfold decimalText
  dsimp only
  split_ifs
  · simp [hdigits, controlFree_zeros]
  · have htake : ∀ k, ControlFree ((Text.digitText d.digits).take k) :=
      fun k c hc => hdigits c (List.mem_of_mem_take hc)
    have hdrop : ∀ k, ControlFree ((Text.digitText d.digits).drop k) :=
      fun k c hc => hdigits c (List.mem_of_mem_drop hc)
    simp [htake, hdrop]
  · simp [hdigits, controlFree_zeros]
  · split
    · next hone =>
      rw [hone] at hdigits
      simpa [controlFree_exponentText] using hdigits
    · next hmany =>
      rw [hmany] at hdigits
      simpa [controlFree_exponentText] using hdigits
    · exact controlFree_nil

end Binary64.Notation

/-- A float is written with digits, a sign, a point and an exponent. -/
theorem Binary64.controlFree_text (x : Binary64) (n : Notation) : ControlFree (x.text n) := by
  have hdecimal := n.controlFree_decimalText (shortest x.rank)
  have hsign : ControlFree (if x.negative then ['-'] else []) := by
    cases x.negative <;> simp
  unfold text
  dsimp only
  split
  · exact controlFree_append.2 ⟨hsign, by simp⟩
  · exact controlFree_append.2 ⟨hsign, hdecimal⟩

/-- An integer is written with digits and a sign. -/
theorem Number.controlFree_integerText (value : Int) : ControlFree (integerText value) := by
  have hdigits := controlFree_digitText value.natAbs
  unfold integerText
  split_ifs <;> simp [hdigits]

theorem Number.controlFree_text (x : Number) (n : Binary64.Notation) : ControlFree (x.text n) := by
  cases x with
  | integer value hfits => exact controlFree_integerText value
  | float x => exact x.controlFree_text n

/-! ## Values -/

namespace Json

/-- Digits in base 16. -/
theorem controlFree_hexText (width n : Nat) : ControlFree (Text.hexText Text.hexDigit width n) := by
  have hdigit : ∀ n < 16, 0x20 ≤ (Text.hexDigit n).toNat := by decide
  induction width generalizing n with
  | zero => exact controlFree_nil
  | succ width ih => simp [Text.hexText, ih, hdigit (n % 16) (Nat.mod_lt n (by decide))]

/-- Control characters are the ones that are always escaped. -/
theorem controlFree_escape (c : Char) : ControlFree (escape c) := by
  unfold escape
  -- the short escapes, the long one, and what is not escaped
  split_ifs with hquote hbackslash hb hf hn hr ht hcontrol
  case pos | pos | pos | pos | pos | pos | pos => simp
  case pos => simp [controlFree_hexText]
  case neg => simpa using hcontrol

/-- A string in quotes holds no control characters, whatever the string does. -/
theorem controlFree_quoted (s : String) : ControlFree (quoted s) := by
  have hinside : ControlFree (s.toList.flatMap escape) := by
    intro c hc
    obtain ⟨x, -, hx⟩ := List.mem_flatMap.1 hc
    exact controlFree_escape x c hx
  simp [quoted, hinside]

/-- A scalar is written without control characters. -/
theorem controlFree_scalarText (value : Scalar) : ControlFree (scalarText value) := by
  cases value with
  | null => simp [scalarText]
  | bool b => cases b <;> simp [scalarText]
  | number n => exact n.controlFree_text floatNotation
  | string s => exact controlFree_quoted s

/-- In the compact layout nothing but commas stands between items. -/
theorem controlFree_writeItems {items : List Tree}
    (h : ∀ item ∈ items, ∀ level, ControlFree (write .compact level item)) (level : Nat) :
    ControlFree (writeItems .compact level items) := by
  induction items with
  | nil => exact controlFree_nil
  | cons item more ih =>
    obtain ⟨hitem, hmore⟩ := List.forall_mem_cons.1 h
    simp [writeItems, Layout.line, hitem level, ih hmore]

/-- In the compact layout nothing but commas stands between properties. -/
theorem controlFree_writeProperties {properties : Properties Tree}
    (h : ∀ property ∈ properties, ∀ level, ControlFree (write .compact level property.2)) (level : Nat) :
    ControlFree (writeProperties .compact level properties) := by
  induction properties with
  | nil => exact controlFree_nil
  | cons property more ih =>
    obtain ⟨hvalue, hmore⟩ := List.forall_mem_cons.1 h
    obtain ⟨name, value⟩ := property
    simp [writeProperties, Layout.line, Layout.colon, controlFree_quoted, hvalue level, ih hmore]

/-- The compact text of a value holds no control characters. -/
theorem controlFree_write (value : Tree) (level : Nat) : ControlFree (write .compact level value) := by
  induction value using Tree.induct generalizing level with
  | scalar value => exact controlFree_scalarText value
  | array items ih =>
    cases items with
    | nil => simp [write]
    | cons item more =>
      obtain ⟨hitem, hmore⟩ := List.forall_mem_cons.1 ih
      simp [write, Layout.line, hitem, controlFree_writeItems hmore]
  | object properties ih =>
    cases properties with
    | nil => simp [write]
    | cons property more =>
      obtain ⟨hvalue, hmore⟩ := List.forall_mem_cons.1 ih
      obtain ⟨name, value⟩ := property
      simp [write, Layout.line, Layout.colon, controlFree_quoted, hvalue, controlFree_writeProperties hmore]

end Json

/-! ## Lines -/

/-- The lines of values written one below the other are the texts of the values. -/
theorem Document.lines_writeLines (values : List Tree) :
    Text.lines (writeLines values) = values.map (Json.write .compact 0) := by
  induction values with
  | nil => rfl
  | cons value more ih =>
    -- the first line ends at the line feed put behind the value, and nowhere in it
    have hline := (Json.controlFree_write value 0).not_mem_newline
    have hlines := Text.lines_append_newline hline (writeLines more)
    rw [writeLines, List.flatMap_cons, List.append_assoc, List.singleton_append, List.map_cons, ← ih]
    exact hlines

end PartialResponse
