import PartialResponse.Http.Form
import PartialResponse.Http.Target
import PartialResponse.Log

/-!
# PartialResponse.Http.Request — the selector text of a request

A request carries selector text in a parameter of its query, or none. The text is
read when it is first asked about, and what it comes to is kept, so that all who
ask see the same. A request can be exempted from selection altogether.
-/

namespace PartialResponse.Http

/-- The selector text of a request, with what is known about it. -/
structure SelectorRequest where
  /-- The selector text, if the request carries one. -/
  text : Option String
  /-- Whether the request is exempt: its answer is sent whole. -/
  bypassed : Bool
  /-- What the text comes to, once somebody has asked. -/
  known : Option Outcome
  known_eq : ∀ o ∈ known, o = Outcome.ofText? text

namespace SelectorRequest

/-- A request with the given selector text. -/
def ofText? (text : Option String) : SelectorRequest :=
  ⟨text, false, none, by simp⟩

/-- The request with the given query, whose selector text is the first value of a parameter. A
parameter without a value carries the empty text. -/
def ofQuery? (query : Option String) (param : String) : SelectorRequest :=
  ofText? (query.bind (Form.value? · param))

/-- Whether the text has been read. -/
def isRead (r : SelectorRequest) : Bool :=
  r.known.isSome

/-- Exempts the request from selection. -/
def bypass (r : SelectorRequest) : SelectorRequest :=
  { r with bypassed := true }

/-- What the text comes to. It is read only if that is not known yet. -/
def outcome (r : SelectorRequest) : Outcome :=
  r.known.getD (Outcome.ofText? r.text)

theorem outcome_eq (r : SelectorRequest) : r.outcome = Outcome.ofText? r.text := by
  unfold outcome
  cases h : r.known with
  | none => rfl
  | some o => exact r.known_eq o h

/-- The request once somebody has asked what its text comes to. -/
def read (r : SelectorRequest) : SelectorRequest :=
  ⟨r.text, r.bypassed, some r.outcome, by simp [outcome_eq]⟩

/-- What asking leaves in the log: the text is reported on when it is read. -/
def readLog (r : SelectorRequest) : List LogLine :=
  if r.isRead then [] else r.outcome.log

end SelectorRequest

end PartialResponse.Http
