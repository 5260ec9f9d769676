import Mathlib.Data.List.Basic
import PartialResponse.Text.Lines

/-!
# PartialResponse.Proofs.Text.Lines — how lines make up a text

A line ends with a line feed, or with a carriage return and a line feed. The last one
may do without an end unless it is empty, for then it is no line. `LaidOut` says so of
the lines and the text that they make up, whatever the mix of ends. Every text is made
up of lines in just one way (`existsUnique_laidOut`), and the lines that are read are
these, some of them with the carriage return of their end (`LaidOut.forall₂_lines`).
-/

namespace PartialResponse.Text

/-- How a line ends. -/
inductive LineEnd where
  | lf
  | crlf
deriving DecidableEq

/-- What the end of a line has in front of the line feed. -/
def LineEnd.lead : LineEnd → List Char
  | lf => []
  | crlf => ['\r']

/-- Lines, and the text that they make up. A line that ends with a line feed alone does not have a
carriage return behind it, since that would be part of its end. -/
inductive LaidOut : List (List Char) → List Char → Prop where
  | nil : LaidOut [] []
  | last {line : List Char} (hnonempty : line ≠ []) (hline : '\n' ∉ line) : LaidOut [line] line
  | cons {line text : List Char} {lines : List (List Char)} (lineEnd : LineEnd)
      (hline : '\n' ∉ line) (hlf : lineEnd = .lf → ¬['\r'] <:+ line) (hrest : LaidOut lines text) :
      LaidOut (line :: lines) (line ++ lineEnd.lead ++ '\n' :: text)

variable {line text : List Char} {lines : List (List Char)}

/-- There is only one line feed in the end of a line, its last character. -/
theorem LineEnd.newline_notMem_lead (lineEnd : LineEnd) : '\n' ∉ lineEnd.lead := by
  cases lineEnd <;> decide

/-- So there is none in a line and the beginning of its end. -/
theorem LineEnd.newline_notMem_append (lineEnd : LineEnd) (hline : '\n' ∉ line) :
    '\n' ∉ line ++ lineEnd.lead := by
  rw [List.mem_append, not_or]
  exact ⟨hline, lineEnd.newline_notMem_lead⟩

/-! ## There are lines -/

/-- What stands in front of a line feed is a line with the beginning of its end. -/
theorem exists_eq_append_lead (front : List Char) :
    ∃ line lineEnd, front = line ++ LineEnd.lead lineEnd ∧ (lineEnd = .lf → ¬['\r'] <:+ line) := by
  -- a carriage return in front of the line feed is part of the end
  by_cases hreturn : ['\r'] <:+ front
  · obtain ⟨line, rfl⟩ := hreturn
    exact ⟨line, .crlf, rfl, fun h => LineEnd.noConfusion h⟩
  · exact ⟨front, .lf, (List.append_nil front).symm, fun _ => hreturn⟩

/-- Every text is made up of lines. -/
theorem exists_laidOut (text : List Char) : ∃ lines, LaidOut lines text := by
  -- the lines behind the first line feed are those of a shorter text
  induction hlength : text.length using Nat.strongRecOn generalizing text with
  | ind n ih =>
    by_cases hnewline : '\n' ∈ text
    · obtain ⟨front, rest, rfl, hfront⟩ := List.eq_append_cons_of_mem hnewline
      obtain ⟨line, lineEnd, rfl, hlf⟩ := exists_eq_append_lead front
      have hshorter : rest.length < n := by
        rw [← hlength, List.length_append, List.length_cons]
        omega
      obtain ⟨lines, hlines⟩ := ih rest.length hshorter rest rfl
      have hline : '\n' ∉ line := fun hmem => hfront (List.mem_append_left _ hmem)
      exact ⟨line :: lines, .cons lineEnd hline hlf hlines⟩
    · by_cases hempty : text = []
      · rw [hempty]
        exact ⟨[], .nil⟩
      · exact ⟨[text], .last hempty hnewline⟩

/-! ## There are no others -/

/-- The first line feed of a text stands in one place. -/
theorem append_newline_inj {front front' rest rest' : List Char} (hfront : '\n' ∉ front)
    (hfront' : '\n' ∉ front') (h : front ++ '\n' :: rest = front' ++ '\n' :: rest') :
    front = front' ∧ rest = rest' := by
  have hlines := congrArg Text.lines h
  rw [lines_append_newline hfront, lines_append_newline hfront'] at hlines
  obtain rfl : front = front' := (List.cons.inj hlines).1
  exact ⟨rfl, (List.cons.inj (List.append_cancel_left h)).2⟩

/-- Since a line with a line feed alone does not end in a carriage return, what stands in front of
the line feed tells which end it is. -/
theorem eq_of_append_lead {line' : List Char} {lineEnd lineEnd' : LineEnd}
    (hlf : lineEnd = .lf → ¬['\r'] <:+ line) (hlf' : lineEnd' = .lf → ¬['\r'] <:+ line')
    (h : line ++ lineEnd.lead = line' ++ lineEnd'.lead) : line = line' := by
  cases lineEnd with
  | lf =>
    cases lineEnd' with
    | lf => simpa [LineEnd.lead] using h
    | crlf => exact absurd ⟨line', by simpa [LineEnd.lead] using h.symm⟩ (hlf rfl)
  | crlf =>
    cases lineEnd' with
    | lf => exact absurd ⟨line, by simpa [LineEnd.lead] using h⟩ (hlf' rfl)
    | crlf => exact List.append_cancel_right h

namespace LaidOut

/-- The empty text has no lines, not even an empty one. -/
theorem eq_nil (h : LaidOut lines []) : lines = [] := by
  generalize htext : ([] : List Char) = text at h
  cases h with
  | nil => rfl
  | last hnonempty hline => exact absurd htext.symm hnonempty
  | cons lineEnd hline hlf hrest => simp at htext

/-- A text without line feeds is one line. -/
theorem eq_singleton (hnonempty : text ≠ []) (htext : '\n' ∉ text) (h : LaidOut lines text) :
    lines = [text] := by
  cases h with
  | nil => exact absurd rfl hnonempty
  | last => rfl
  | cons lineEnd hline hlf hrest => simp at htext

/-- The first line of a text and its end can be taken off. -/
theorem eq_cons {lineEnd : LineEnd} (hline : '\n' ∉ line) (hlf : lineEnd = .lf → ¬['\r'] <:+ line)
    (h : LaidOut lines (line ++ lineEnd.lead ++ '\n' :: text)) :
    ∃ rest, lines = line :: rest ∧ LaidOut rest text := by
  -- the text is generalized so that the cases of how it is laid out can be taken
  generalize hwhole : line ++ lineEnd.lead ++ '\n' :: text = whole at h
  cases h with
  | nil => simp at hwhole
  | last hnonempty hwholeLine => simp [← hwhole] at hwholeLine
  | cons lineEnd' hline' hlf' hrest =>
    obtain ⟨hfront, rfl⟩ := append_newline_inj (lineEnd.newline_notMem_append hline)
      (lineEnd'.newline_notMem_append hline') hwhole
    obtain rfl := eq_of_append_lead hlf hlf' hfront
    exact ⟨_, rfl, hrest⟩

/-- A text is made up of no other lines. By induction on the lines that are known. -/
theorem unique {lines' : List (List Char)} (h : LaidOut lines text) (h' : LaidOut lines' text) :
    lines' = lines := by
  induction h generalizing lines' with
  | nil => exact h'.eq_nil
  | last hnonempty hline => exact h'.eq_singleton hnonempty hline
  | cons lineEnd hline hlf hrest ih =>
    obtain ⟨rest', rfl, hrest'⟩ := h'.eq_cons hline hlf
    rw [ih hrest']

end LaidOut

/-- Every text is made up of lines in just one way. -/
theorem existsUnique_laidOut (text : List Char) : ∃! lines, LaidOut lines text := by
  obtain ⟨lines, h⟩ := exists_laidOut text
  exact ⟨lines, h, fun lines' h' => h.unique h'⟩

/-! ## The lines that are read -/

/-- A text without line feeds is read as one line. -/
theorem lines_of_notMem (hnonempty : line ≠ []) (hline : '\n' ∉ line) :
    Text.lines line = [line] := by
  induction line with
  | nil => exact absurd rfl hnonempty
  | cons c line ih =>
    rw [List.mem_cons, not_or] at hline
    -- the induction goes on only if there is a character left
    cases line with
    | nil => simp [Text.lines, Ne.symm hline.1]
    | cons d more => rw [Text.lines, if_neg (Ne.symm hline.1), ih (List.cons_ne_nil d more) hline.2]

/-- The lines that are read are those that make up the text, with what stands in front of their line
feeds. -/
theorem LaidOut.forall₂_lines (h : LaidOut lines text) :
    List.Forall₂ (fun line read => ∃ lineEnd, read = line ++ LineEnd.lead lineEnd) lines
      (Text.lines text) := by
  induction h with
  | nil => exact .nil
  | last hnonempty hline =>
    rw [lines_of_notMem hnonempty hline]
    exact .cons ⟨.lf, (List.append_nil _).symm⟩ .nil
  | cons lineEnd hline hlf hrest ih =>
    rw [lines_append_newline (lineEnd.newline_notMem_append hline)]
    exact .cons ⟨lineEnd, rfl⟩ ih

/-! ## Two texts -/

/-- Only the empty text is read as no lines. -/
theorem lines_eq_nil_iff : Text.lines text = [] ↔ text = [] := by
  cases text with
  | nil => simp [Text.lines]
  | cons c rest =>
    rw [Text.lines]
    split
    · simp
    · split <;> simp

/-- The lines of two texts with a line feed between them are those of both. Where the first text has an
end behind its last line, there is an empty line between them. -/
theorem lines_append_newline_append (front back : List Char) :
    Text.lines (front ++ '\n' :: back) = Text.lines front ++ Text.lines back ∨
      Text.lines (front ++ '\n' :: back) = Text.lines front ++ [] :: Text.lines back := by
  induction front with
  | nil => exact .inr rfl
  | cons c rest ih =>
    by_cases hc : c = '\n'
    · rw [List.cons_append, Text.lines, if_pos hc, Text.lines, if_pos hc]
      exact ih.imp (congrArg _) (congrArg _)
    · rw [List.cons_append, Text.lines, if_neg hc, Text.lines, if_neg hc]
      cases hrest : Text.lines rest with
      | nil =>
        -- the line feed ends the line that has been started, so no empty line comes in between
        rw [lines_eq_nil_iff.1 hrest]
        exact .inl rfl
      | cons line more =>
        rw [hrest] at ih
        rcases ih with ih | ih
        · rw [ih]
          exact .inl rfl
        · rw [ih]
          exact .inr rfl

end PartialResponse.Text
