import PartialResponse.Config.Text
import PartialResponse.Proofs.Toml.Entries

/-!
# PartialResponse.Proofs.Config.RoundTrip — configurations read back from their text

A configuration is written as a line for each setting, but for a case mode that is
not set: there a missing line says what no value could. The integers of the text are
narrower than the size of an indentation, so a configuration with too large a size
has no text (`write?_eq_none_iff`). Every other one reads back (`read?_write?`).
-/

namespace PartialResponse.Config

open Toml (Line)

/-- The lines of a configuration. -/
def lines (c : Config) (hfits : c.indentSize ≤ Toml.maxInteger) : List Line :=
  [⟨"fields_param_name", _, _, by decide, Toml.writes_string c.fieldsParam.toList⟩,
    ⟨"ignore_case", _, _, by decide, Toml.writes_bool c.ignoreCase⟩,
    ⟨"ignore_parse_errors", _, _, by decide, Toml.writes_bool c.ignoreParseErrors⟩,
    ⟨"always_included", _, _, by decide, Toml.writes_strings (c.alwaysIncluded.map (·.toList))⟩] ++
  (c.alwaysIgnoreCase.map fun b =>
    ⟨"always_included_ignore_case", _, _, by decide, Toml.writes_bool b⟩).toList ++
  [⟨"indent_size", _, _, by decide, Toml.writes_integer hfits⟩,
    ⟨"compact", _, _, by decide, Toml.writes_bool c.compact⟩]

theorem write?_eq_none_iff {c : Config} : c.write? = none ↔ Toml.maxInteger < c.indentSize := by
  rw [write?]
  split
  · next hfits => simpa using hfits
  · next hlarge => simpa using hlarge

/-- The text of a configuration is made of its lines. -/
theorem write?_eq_lines {c : Config} (hfits : c.indentSize ≤ Toml.maxInteger) :
    c.write? = some ((c.lines hfits).flatMap Line.text) := by
  rw [write?, if_pos hfits]
  cases hcase : c.alwaysIgnoreCase <;> simp [lines, Line.text, hcase]

theorem nodup_keys_lines {c : Config} (hfits : c.indentSize ≤ Toml.maxInteger) :
    ((c.lines hfits).map Line.key).Nodup := by
  cases hcase : c.alwaysIgnoreCase <;> simp [lines, hcase]

/-- Texts are what they are written as. -/
theorem mapM_text? (texts : List String) :
    texts.mapM (text? ∘ Toml.Value.string ∘ fun s => s.toList) = some texts := by
  induction texts with
  | nil => rfl
  | cons s texts ih =>
    rw [List.mapM_cons, ih]
    simp [text?]

/-- The lines of a configuration describe it. -/
theorem ofEntries?_lines {c : Config} (hfits : c.indentSize ≤ Toml.maxInteger) :
    ofEntries? ((c.lines hfits).map Line.entry) = some c := by
  obtain ⟨fieldsParam, ignoreCase, ignoreParseErrors, alwaysIncluded, alwaysIgnoreCase, indentSize,
    compact⟩ := c
  have hstrings := mapM_text? alwaysIncluded
  have hnatural : ¬(indentSize : Int) < 0 := by omega
  -- without a line for the case mode the others are the same, and it is not set
  cases alwaysIgnoreCase <;>
    simp [lines, Line.entry, ofEntries?, stringAt?, boolAt?, optionalBoolAt?, naturalAt?,
      stringsAt?, Properties.get?, hstrings, hnatural]

/-- **A configuration reads back from its text.** -/
theorem read?_write? {c : Config} {text : List Char} (h : c.write? = some text) :
    read? text = some c := by
  by_cases hfits : c.indentSize ≤ Toml.maxInteger
  · rw [write?_eq_lines hfits, Option.some.injEq] at h
    rw [← h, read?, Toml.read?_lines (nodup_keys_lines hfits), Option.bind_some, ofEntries?_lines hfits]
  · rw [write?_eq_none_iff.2 (by omega)] at h
    cases h

end PartialResponse.Config
