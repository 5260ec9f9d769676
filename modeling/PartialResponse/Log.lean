import PartialResponse.Selector.Outcome
import PartialResponse.Http.Status

/-!
# PartialResponse.Log — what is reported on the way

Reading a selector, pruning a value and writing a response each leave a line in
the log.
-/

namespace PartialResponse

/-- A line of the log. -/
inductive LogLine where
  /-- Selector text has been read into so many selectors. -/
  | selectorRead (count : Nat)
  /-- Selector text is malformed. -/
  | selectorMalformed (cause : SelectorError)
  /-- A value has been pruned: so many paths were matched, and so often the answer was known. -/
  | pruned (distinctPaths cacheHits : Nat)
  /-- A partial result is written with this status. -/
  | executing (status : Http.Status)
deriving DecidableEq

namespace LogLine

/-- The line as it is logged, with its level in front. -/
def text : LogLine → String
  | selectorRead count => s!"DEBUG Parsed fields selector into {count} selector(s)"
  | selectorMalformed cause =>
    "WARN Failed to parse fields for partial response: " ++ cause.message
  | pruned distinctPaths cacheHits =>
    s!"DEBUG Pruned value: {distinctPaths} distinct paths, {cacheHits} cache hits"
  | executing status => "DEBUG Executing partial JSON result with status " ++ status.text

end LogLine

/-- What reading a selector leaves in the log: nothing if there was none. -/
def Outcome.log : Outcome → List LogLine
  | absent => []
  | malformed cause => [.selectorMalformed cause]
  | selected selection => [.selectorRead selection.size]

end PartialResponse
