import PartialResponse.Selector.Selection
import PartialResponse.Selector.Parser
import PartialResponse.Text.LowerCase

/-!
# PartialResponse.Selector.Matching — which paths a selection reaches

A path is the list of property names from the root to a property. A selector
reaches a path when one of the two continues the other: the property lies at or
below the selected one, or above it, where it has to stay so that the selected
one can be reached.
-/

namespace PartialResponse

/-- How property names are compared. -/
inductive CaseMode where
  | sensitive
  | insensitive
deriving DecidableEq, Repr

namespace CaseMode

/-- The mode for a configured "ignore case" flag. -/
def ofIgnoreCase (ignoreCase : Bool) : CaseMode :=
  if ignoreCase then insensitive else sensitive

/-- Whether the mode ignores case. -/
def ignoresCase : CaseMode → Bool
  | sensitive => false
  | insensitive => true

/-- Whether two names count as the same name. Without case, the lower-case forms decide. -/
def sameName : CaseMode → String → String → Bool
  | sensitive, a, b => a == b
  | insensitive, a, b => Text.lowerCaseText a == Text.lowerCaseText b

end CaseMode

/-- Whether two paths agree as far as both go, so that one of them continues the other. -/
def related (mode : CaseMode) : List String → List String → Bool
  | [], _ => true
  | _, [] => true
  | a :: as, b :: bs => mode.sameName a b && related mode as bs

/-- Whether some selector of the selection is related to the path. -/
def Selection.reaches (s : Selection) (mode : CaseMode) (path : List String) : Bool :=
  s.selectors.any fun x => related mode path x.names

/-- Selectors that are retained whatever the caller asks for, with a case mode of their own. -/
structure AlwaysIncluded where
  selection : Selection
  mode : CaseMode

namespace AlwaysIncluded

/-- Whether the path is retained. -/
def reaches (a : AlwaysIncluded) (path : List String) : Bool :=
  a.selection.reaches a.mode path

/-- The union of the selections of several texts; the first malformed text is the error. -/
def parse (texts : List String) (mode : CaseMode) : Except SelectorError AlwaysIncluded := do
  let selections ← texts.mapM Selection.parse
  return ⟨selections.foldl Selection.union .empty, mode⟩

end AlwaysIncluded

end PartialResponse
