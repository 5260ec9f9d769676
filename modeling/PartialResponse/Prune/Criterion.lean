import PartialResponse.Selector.Matching

/-!
# PartialResponse.Prune.Criterion — which properties are kept

A property is kept if the caller's selection reaches its path, or if what is
always included does.
-/

namespace PartialResponse

/-- What decides which properties are kept. -/
structure Criterion where
  selection : Selection
  mode : CaseMode
  always : Option AlwaysIncluded

namespace Criterion

/-- Whether the property at the path is kept. -/
def keeps (c : Criterion) (path : List String) : Bool :=
  c.selection.reaches c.mode path || c.always.any (·.reaches path)

end Criterion

end PartialResponse
