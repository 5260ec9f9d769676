import PartialResponse.Prune.Criterion
import PartialResponse.Prune.MatchCache
import PartialResponse.Tree.Basic
import PartialResponse.Log

/-!
# PartialResponse.Prune.Pass — pruning a value in one pass

A pass goes through a value from the root and carries the path it is at. A
property whose path is not kept is dropped with all it holds. Array items do not
extend the path: they are visited at the path of the array. An object or array
that had content and loses all of it is dropped from what holds it; one that was
empty before stays, and so does the root.

The names of the path lie in buffers that siblings use again, so the buffers may
hold names of properties the pass has already left.

A pass is written for any monad in which a criterion can be put to a path
(`Pass.valueM`), so that it can be said how often that is done. The passes that are
run only look the answer up (`Criterion.keeps`).
-/

namespace PartialResponse

/-- What becomes of a value: what is left of it, and whether it lost all of its content. -/
structure Pruned where
  value : Tree
  emptied : Bool

/-- A pass under way. -/
structure Pass where
  criterion : Criterion
  cache : MatchCache
  /-- The names written so far; only the first `depth` belong to the path. -/
  buffers : List String
  depth : Nat

namespace Pass

/-- The pass that has not begun. -/
def start (criterion : Criterion) : Pass := ⟨criterion, .empty, [], 0⟩

/-- The path the pass is at. -/
def path (pass : Pass) : List String :=
  pass.buffers.take pass.depth

/-- Descends into a property. Its name goes into the buffer at this depth, if there is one. -/
def enter (pass : Pass) (name : String) : Pass :=
  { pass with
    buffers :=
      -- the name of a sibling may lie there, and deeper names behind it
      if pass.depth < pass.buffers.length then pass.buffers.set pass.depth name
      else pass.buffers ++ [name]
    depth := pass.depth + 1 }

/-- Goes back to what holds the property. Its name stays in the buffer. -/
def leave (pass : Pass) : Pass :=
  { pass with depth := pass.depth - 1 }

section

variable {m : Type → Type} [Monad m] (test : Criterion → List String → m Bool)

/-- Whether the path is kept, by the answer given before or else by putting the criterion to the
path. -/
def selectsM : Pass → m (Bool × Pass)
  | ⟨criterion, cache, buffers, depth⟩ => do
    let path := buffers.take depth
    let (kept, cache) ← cache.askM path fun _ => test criterion path
    pure (kept, ⟨criterion, cache, buffers, depth⟩)

mutual

/-- Prunes the value at the path of the pass. -/
def valueM (pass : Pass) : Tree → m (Pruned × Pass)
  -- a scalar has no content to lose
  | .scalar s => pure (⟨.scalar s, false⟩, pass)
  | .array items => do
    let (left, pass) ← arrayM pass items
    pure (⟨.array left, !items.isEmpty && left.isEmpty⟩, pass)
  | .object properties => do
    let (left, pass) ← objectM pass properties
    pure (⟨.object left, !properties.isEmpty && left.isEmpty⟩, pass)

/-- Prunes the items of the array at the path of the pass. -/
def arrayM (pass : Pass) : List Tree → m (List Tree × Pass)
  | [] => pure ([], pass)
  | item :: rest => do
    let (first, pass) ← valueM pass item
    let (left, pass) ← arrayM pass rest
    pure (if first.emptied then left else first.value :: left, pass)

/-- Prunes the properties of the object at the path of the pass. -/
def objectM (pass : Pass) : Properties Tree → m (Properties Tree × Pass)
  | [] => pure ([], pass)
  | (name, child) :: rest => do
    let (kept, pass) ← selectsM test (pass.enter name)
    if kept then
      let (first, pass) ← valueM pass child
      let (left, pass) ← objectM pass.leave rest
      pure (if first.emptied then left else (name, first.value) :: left, pass)
    -- what the property holds is not visited
    else objectM pass.leave rest

end

end

/-- Whether the path is kept; each path is tested once. -/
def selects (pass : Pass) : Bool × Pass :=
  Id.run (pass.selectsM Criterion.keeps)

/-- Prunes the value at the path of the pass. -/
def value (pass : Pass) (t : Tree) : Pruned × Pass :=
  Id.run (pass.valueM Criterion.keeps t)

/-- Prunes the items of the array at the path of the pass. -/
def array (pass : Pass) (items : List Tree) : List Tree × Pass :=
  Id.run (pass.arrayM Criterion.keeps items)

/-- Prunes the properties of the object at the path of the pass. -/
def object (pass : Pass) (properties : Properties Tree) : Properties Tree × Pass :=
  Id.run (pass.objectM Criterion.keeps properties)

section

variable {pass : Pass}

/-! The passes that are run, one step after the other. -/

@[simp]
theorem value_scalar (s : Scalar) : pass.value (.scalar s) = (⟨.scalar s, false⟩, pass) :=
  rfl

@[simp]
theorem value_array (items : List Tree) :
    pass.value (.array items) =
      (⟨.array (pass.array items).1, !items.isEmpty && (pass.array items).1.isEmpty⟩,
        (pass.array items).2) :=
  rfl

@[simp]
theorem value_object (properties : Properties Tree) :
    pass.value (.object properties) =
      (⟨.object (pass.object properties).1,
        !properties.isEmpty && (pass.object properties).1.isEmpty⟩, (pass.object properties).2) :=
  rfl

@[simp]
theorem array_nil : pass.array [] = ([], pass) :=
  rfl

@[simp]
theorem array_cons (item : Tree) (rest : List Tree) :
    pass.array (item :: rest) =
      (if (pass.value item).1.emptied then ((pass.value item).2.array rest).1
        else (pass.value item).1.value :: ((pass.value item).2.array rest).1,
        ((pass.value item).2.array rest).2) :=
  rfl

@[simp]
theorem object_nil : pass.object [] = ([], pass) :=
  rfl

@[simp]
theorem object_cons (name : String) (child : Tree) (rest : Properties Tree) :
    pass.object ((name, child) :: rest) =
      if (pass.enter name).selects.1 then
        let first := (pass.enter name).selects.2.value child
        (if first.1.emptied then (first.2.leave.object rest).1
          else (name, first.1.value) :: (first.2.leave.object rest).1,
          (first.2.leave.object rest).2)
      else (pass.enter name).selects.2.leave.object rest := by
  have hselects : (pass.enter name).selectsM Criterion.keeps =
      (pure (pass.enter name).selects : Id _) := rfl
  -- the pair is taken apart, so that both ways of the answer compute
  rw [object, objectM, hselects]
  obtain ⟨kept, inside⟩ := (pass.enter name).selects
  cases kept <;> rfl

end

end Pass

/-- What is left of a root value, and the log line of the pass. -/
def Tree.pruneLogged (criterion : Criterion) (root : Tree) : Tree × LogLine :=
  let (pruned, pass) := (Pass.start criterion).value root
  (pruned.value, .pruned pass.cache.misses pass.cache.hits)

/-- What is left of a root value. -/
def Tree.prune (criterion : Criterion) (root : Tree) : Tree :=
  (root.pruneLogged criterion).1

/-- What a request's outcome leaves of a root value, with the log lines. Only a selection prunes:
without selector text, and with a malformed one, the value stays whole. -/
def Outcome.apply (outcome : Outcome) (mode : CaseMode) (always : Option AlwaysIncluded)
    (root : Tree) : Tree × List LogLine :=
  match outcome with
  | .selected selection =>
    let (pruned, line) := root.pruneLogged ⟨selection, mode, always⟩
    (pruned, [line])
  | _ => (root, [])

end PartialResponse
