import PartialResponse.Selector.Parser

/-!
# PartialResponse.Selector.Outcome — what a request asks for

A request may carry no selector text, malformed text, or the text of a
selection. The three differ: no text leaves the answer whole, while the empty
text selects nothing and so keeps only what is always included.
-/

namespace PartialResponse

/-- What the selector text of a request comes to. -/
inductive Outcome where
  | absent
  | malformed (cause : SelectorError)
  | selected (selection : Selection)

namespace Outcome

/-- The outcome of a text that may be missing. -/
def ofText? : Option String → Outcome
  | none => absent
  | some text =>
    match Selection.parse text with
    | .ok selection => selected selection
    | .error cause => malformed cause

/-- Whether there was a text, well formed or not. -/
def isPresent : Outcome → Bool
  | absent => false
  | _ => true

/-- Whether there was a malformed text. -/
def isMalformed : Outcome → Bool
  | malformed _ => true
  | _ => false

/-- Whether there was a well-formed text. -/
def isSelected : Outcome → Bool
  | selected _ => true
  | _ => false

/-- The selection of a well-formed text. -/
def selection? : Outcome → Option Selection
  | selected selection => some selection
  | _ => none

/-- Why the text is malformed. -/
def cause? : Outcome → Option SelectorError
  | malformed cause => some cause
  | _ => none

end Outcome

end PartialResponse
