import Std.Data.HashMap

/-!
# PartialResponse.Prune.MatchCache — answers given before

The elements of an array often have the same properties, so one pass over a
value asks about the same path again and again. The cache keeps the first answer
for each path. Paths are compared name by name, so a name that holds a slash is
not mistaken for two names. The counts have no greatest number.
-/

namespace PartialResponse

/-- Answers by path, with counts of the questions answered from the cache and of the others. -/
structure MatchCache where
  entries : Std.HashMap (List String) Bool
  hits : Nat
  misses : Nat

namespace MatchCache

/-- The cache without answers. -/
def empty : MatchCache := ⟨∅, 0, 0⟩

/-- The answer kept for a path. -/
def find? (cache : MatchCache) (path : List String) : Option Bool :=
  cache.entries[path]?

/-- The answer for a path, and the cache afterwards. Only a path without an answer is tested, and then
what the test finds is kept. The test may have effects: it is made where the cache has no answer. -/
def askM {m : Type → Type} [Monad m] (cache : MatchCache) (path : List String)
    (test : Unit → m Bool) : m (Bool × MatchCache) :=
  match cache.find? path with
  | some known => pure (known, { cache with hits := cache.hits + 1 })
  | none => do
    let found ← test ()
    pure (found, { entries := cache.entries.insert path found, hits := cache.hits,
                   misses := cache.misses + 1 })

/-- Asking with a test that only answers. -/
def ask (cache : MatchCache) (path : List String) (answer : Unit → Bool) : Bool × MatchCache :=
  Id.run (cache.askM path answer)

/-- The number of paths with an answer. -/
def size (cache : MatchCache) : Nat :=
  cache.entries.size

/-- Whether there is no answer yet. -/
def isEmpty (cache : MatchCache) : Bool :=
  cache.entries.isEmpty

end MatchCache

end PartialResponse
