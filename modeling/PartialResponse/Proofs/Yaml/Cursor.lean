import PartialResponse.Yaml.Cursor
import Mathlib.Data.List.Basic

/-!
# PartialResponse.Proofs.Yaml.Cursor — how cursors move

A cursor moves past characters of its line and past line breaks, and never back.
What it comes to is said here for a text that is known to come next.
-/

namespace PartialResponse.Yaml

/-! ## Steps that may fail -/

@[simp] theorem ok_bind {ε α β : Type} (a : α) (f : α → Except ε β) : (Except.ok a >>= f) = f a :=
  rfl

@[simp] theorem error_bind {ε α β : Type} (e : ε) (f : α → Except ε β) :
    (Except.error e >>= f) = .error e :=
  rfl

/-! ## Characters -/

/-- Bytes add up, character by character. -/
@[simp]
theorem byteCount_append (a b : List Char) : byteCount (a ++ b) = byteCount a + byteCount b := by
  induction a with
  | nil => simp [byteCount]
  | cons c a ih =>
    have hcons : ∀ t : List Char, byteCount (c :: t) = c.utf8Size + byteCount t := fun _ => rfl
    rw [List.cons_append, hcons, hcons, ih, Nat.add_assoc]

theorem not_isBreak_of_isBlank {c : Char} (h : isBlank c = true) : isBreak c = false := by
  simp only [isBlank, Bool.or_eq_true, beq_iff_eq] at h
  rcases h with rfl | rfl <;> rfl

namespace Cursor

variable {c : Cursor} {a b : List Char}

/-- A cursor is determined by its text and its place; what is left is counted from the text. -/
theorem ext_fields {c d : Cursor} (hrest : c.rest = d.rest) (hindex : c.index = d.index)
    (hline : c.line = d.line) (hcolumn : c.column = d.column) : c = d := by
  obtain ⟨rest, left, hleft, index, line, column⟩ := c
  obtain ⟨rest', left', hleft', index', line', column'⟩ := d
  simp only at hrest hindex hline hcolumn
  subst hrest hindex hline hcolumn hleft hleft'
  rfl

/-! ## Along a line -/

@[simp]
theorem skip_zero (c : Cursor) : c.skip 0 = c := by
  apply ext_fields <;> simp [skip, take, byteCount]

/-- Moving along a line twice is moving along once. -/
@[simp]
theorem skip_skip (c : Cursor) (m n : Nat) : (c.skip m).skip n = c.skip (m + n) := by
  have hleft := c.left_eq
  apply ext_fields
  · simp [skip, take]
  · simp [skip, take, List.take_add, byteCount_append, Nat.add_assoc]
  · rfl
  · simp only [skip, take]
    omega

@[simp] theorem line_skip (c : Cursor) (n : Nat) : (c.skip n).line = c.line := rfl

/-- Behind a text that is known to come next. -/
theorem rest_skip (h : c.rest = a ++ b) : (c.skip a.length).rest = b := by
  simp [skip, take, h]

/-- The index counts bytes. -/
theorem index_skip (h : c.rest = a ++ b) : (c.skip a.length).index = c.index + byteCount a := by
  simp [skip, take, h]

/-- The column counts characters. -/
theorem column_skip (h : c.rest = a ++ b) : (c.skip a.length).column = c.column + a.length := by
  have hleft : a.length ≤ c.left := by
    rw [c.left_eq, h, List.length_append]
    omega
  simp [skip, take, Nat.min_eq_left hleft]

theorem left_skip (h : c.rest = a ++ b) : (c.skip a.length).left = b.length := by
  rw [left_eq, rest_skip h]

/-- Less is left behind a text that is not empty. -/
theorem left_lt_of_rest {c' : Cursor} (h : c.rest = a ++ c'.rest) (ha : a ≠ []) :
    c'.left < c.left := by
  have hlength := List.length_pos_of_ne_nil ha
  rw [c.left_eq, c'.left_eq, h, List.length_append]
  omega

/-- Nothing of a kind comes first if the next character is of another kind. -/
theorem takeWhile_of_head {test : Char → Bool} (hb : ∀ x ∈ b.head?, test x = false) :
    b.takeWhile test = [] := by
  cases b with
  | nil => rfl
  | cons x b => simp [hb x rfl]

/-- Moving past all characters of a kind, up to one of another kind. -/
theorem skipWhile_eq {test : Char → Bool} (h : c.rest = a ++ b) (ha : ∀ x ∈ a, test x = true)
    (hb : ∀ x ∈ b.head?, test x = false) : c.skipWhile test = c.skip a.length := by
  rw [skipWhile, h, List.takeWhile_append_of_pos ha, takeWhile_of_head hb, List.append_nil]

/-- The cursor stays where the next character is of another kind. -/
theorem skipWhile_of_head {test : Char → Bool} (h : ∀ x ∈ c.rest.head?, test x = false) :
    c.skipWhile test = c := by
  rw [skipWhile, takeWhile_of_head h, List.length_nil, skip_zero]

/-- No character of a kind comes next. -/
theorem nextIs_of_head {test : Char → Bool} (h : ∀ x ∈ c.rest.head?, test x = false) :
    c.nextIs test = false := by
  rw [nextIs]
  cases hx : c.rest.head? with
  | none => rfl
  | some x => exact h x hx

theorem at?_eq_false {x : Char} (h : ∀ y ∈ c.rest.head?, y ≠ x) : c.at? x = false := by
  rw [at?, beq_eq_false_iff_ne]
  exact fun hx => h x hx rfl

/-- Only a number sign starts a comment. -/
theorem skipComment_eq (h : ∀ x ∈ c.rest.head?, x ≠ '#') : c.skipComment = c := by
  simp [skipComment, at?_eq_false h]

/-! ## To the next line -/

/-- The start of the next line, behind a line break. -/
theorem skipBreak_eq {x : Char} (h : c.rest = x :: b) (hx : isBreak x = true) (hr : x ≠ '\r') :
    c.skipBreak.rest = b ∧ c.skipBreak.line = c.line + 1 ∧ c.skipBreak.column = 0 := by
  unfold skipBreak
  split
  -- no carriage return, so the break is one character
  · next hrest => simp [h, hr] at hrest
  · next y rest _ hrest =>
    rw [h, List.cons.injEq] at hrest
    obtain ⟨rfl, rfl⟩ := hrest
    simp [hx, take, h]
  · next hrest => simp [h] at hrest

/-! ## Never back -/

/-- Whether the second cursor is not in front of the first. -/
structure Le (c d : Cursor) : Prop where
  line : c.line ≤ d.line
  index : c.index ≤ d.index
  left : d.left ≤ c.left

theorem Le.refl (c : Cursor) : c.Le c := ⟨Nat.le_refl _, Nat.le_refl _, Nat.le_refl _⟩

theorem Le.trans {c d e : Cursor} (h₁ : c.Le d) (h₂ : d.Le e) : c.Le e :=
  ⟨Nat.le_trans h₁.line h₂.line, Nat.le_trans h₁.index h₂.index, Nat.le_trans h₂.left h₁.left⟩

/-- Moving along a line. -/
theorem le_skip (c : Cursor) (n : Nat) : c.Le (c.skip n) :=
  ⟨Nat.le_refl _, Nat.le_add_right _ _, Nat.sub_le _ _⟩

/-- Moving to the end of a comment, if there is one. -/
theorem le_skipComment (c : Cursor) : c.Le c.skipComment := by
  unfold skipComment
  split
  · exact le_skip _ _
  · exact Le.refl c

/-- Moving past a line break, which may be of two characters. -/
theorem le_skipBreak (c : Cursor) : c.Le c.skipBreak := by
  unfold skipBreak
  split
  · exact ⟨Nat.le_succ _, Nat.le_add_right _ _, Nat.sub_le _ _⟩
  · split
    · exact ⟨Nat.le_succ _, Nat.le_add_right _ _, Nat.sub_le _ _⟩
    · exact Le.refl c
  · exact Le.refl c

end Cursor

end PartialResponse.Yaml
