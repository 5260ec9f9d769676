import PartialResponse.Json.Printer
import PartialResponse.Selector.Matching

/-!
# PartialResponse.Config.Basic — configuration

What can be configured, and what it comes to: how names are compared, what is
always included, and how JSON is laid out.

All of it can be asked of any configuration but the layout: an indentation can be
configured that no text has room for.
-/

namespace PartialResponse

/-- A configuration. -/
structure Config where
  /-- The query parameter that carries the selector text. -/
  fieldsParam : String
  ignoreCase : Bool
  /-- Whether malformed selector text counts as absent. -/
  ignoreParseErrors : Bool
  /-- Selector texts for what is always included. -/
  alwaysIncluded : List String
  /-- Whether what is always included ignores case; without it the general rule holds. -/
  alwaysIgnoreCase : Option Bool
  /-- How many spaces a level of JSON is indented by. Any number can be set, also one that is more than
  a text can hold (`Config.layout?`). -/
  indentSize : Nat
  compact : Bool
deriving DecidableEq, Repr

namespace Config

/-- The configuration where nothing is set. -/
def default : Config := ⟨"fields", false, false, [], none, 2, false⟩

/-- How the names of the caller's selection are compared. -/
def caseMode (c : Config) : CaseMode :=
  .ofIgnoreCase c.ignoreCase

/-- How the names of what is always included are compared. -/
def alwaysCaseMode (c : Config) : CaseMode :=
  .ofIgnoreCase (c.alwaysIgnoreCase.getD c.ignoreCase)

/-- What is always included, if anything is configured. -/
def always (c : Config) : Except SelectorError (Option AlwaysIncluded) :=
  if c.alwaysIncluded.isEmpty then .ok none
  else (AlwaysIncluded.parse c.alwaysIncluded c.alwaysCaseMode).map some

/-- How a single JSON value is laid out. Where the indentation is too long for a text, the program stops
with a capacity overflow before it looks at the value, and nothing is handed back, not even an
error. -/
def layout? (c : Config) : Option Json.Layout :=
  if c.compact then some .compact
  else if hfits : c.indentSize ≤ Json.maxIndent then some (.pretty c.indentSize hfits)
  else none

/-- The text of a single JSON value. -/
def jsonText? (c : Config) (value : Tree) : Option String :=
  c.layout?.map (Json.text · value)

theorem layout?_of_compact {c : Config} (h : c.compact = true) : c.layout? = some .compact := by
  rw [layout?, if_pos h]

/-- There is no layout just if the output is not compact and the indentation is too long. -/
theorem layout?_eq_none_iff {c : Config} :
    c.layout? = none ↔ c.compact = false ∧ Json.maxIndent < c.indentSize := by
  unfold layout?
  cases c.compact <;> simp

theorem exists_layout {c : Config} (h : c.compact = true ∨ c.indentSize ≤ Json.maxIndent) :
    ∃ layout, c.layout? = some layout := by
  rw [← Option.ne_none_iff_exists', ne_eq, layout?_eq_none_iff]
  rintro ⟨hspread, hlong⟩
  rcases h with h | h
  · rw [h] at hspread
    contradiction
  · omega

end Config

end PartialResponse
