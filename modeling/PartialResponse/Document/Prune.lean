import PartialResponse.Document.Basic
import PartialResponse.Prune.Pass

/-!
# PartialResponse.Document.Prune — pruning documents

The root values of a document are pruned one by one, each in a pass of its own.
-/

namespace PartialResponse.Document

/-- What is left of each root value. -/
def prune (criterion : Criterion) (document : Document) : Document :=
  document.map (Tree.prune criterion)

/-- The log lines of the passes over the root values. -/
def pruneLog (criterion : Criterion) (document : Document) : List LogLine :=
  document.values.map fun value => (value.pruneLogged criterion).2

end PartialResponse.Document
