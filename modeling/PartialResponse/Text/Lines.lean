/-!
# PartialResponse.Text.Lines — lines

The lines of a text. A line feed ends a line, and behind the last one no further
line starts unless there is text.
-/

namespace PartialResponse.Text

/-- The lines of a text, without their line feeds. -/
def lines : List Char → List (List Char)
  | [] => []
  | c :: rest =>
    if c = '\n' then [] :: lines rest
    else
      match lines rest with
      | [] => [[c]]
      | line :: more => (c :: line) :: more

theorem lines_append_newline {line : List Char} (h : '\n' ∉ line) (rest : List Char) :
    lines (line ++ '\n' :: rest) = line :: lines rest := by
  induction line with
  | nil => simp [lines]
  | cons c line ih =>
    have hne : c ≠ '\n' := fun he => h (by simp [he])
    have htail : '\n' ∉ line := fun hm => h (List.mem_cons_of_mem _ hm)
    simp [lines, hne, ih htail]

end PartialResponse.Text
