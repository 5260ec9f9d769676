import PartialResponse.Proofs.Tree.Parts

/-!
# PartialResponse.Proofs.Prune.Thinning — pruning without state

Thinning is what pruning does, said by recursion on the value alone: no cache, no
buffers, and a test of paths that is any function. It is what the pass is
compared with, and what the theory of pruning is about.

Main statement: thinning by two tests in turn is thinning by both at once, and
this needs nothing of the tests (`thin_thin`). What a first pass empties, below
the root, it takes away, so a second pass finds no container that is empty only
because of the first.
-/

namespace PartialResponse.Tree

/-- Whether a value that held something holds nothing any more. A value that held nothing before
has not lost anything. -/
def collapses (before after : Tree) : Bool :=
  !before.isEmpty && after.isEmpty

mutual

/-- What is left of a value at a path: of an object the properties whose paths pass the test, of an
array all items, both thinned, and without those that collapse. -/
def thin (keeps : List String → Bool) (path : List String) : Tree → Tree
  | scalar s => scalar s
  | array items => array (thinItems keeps path items)
  | object properties => object (thinProperties keeps path properties)

/-- What is left of items at a path. -/
def thinItems (keeps : List String → Bool) (path : List String) : List Tree → List Tree
  | [] => []
  | item :: rest =>
    if item.collapses (thin keeps path item) then thinItems keeps path rest
    else thin keeps path item :: thinItems keeps path rest

/-- What is left of the properties of an object at a path. -/
def thinProperties (keeps : List String → Bool) (path : List String) :
    Properties Tree → Properties Tree
  | [] => []
  | (name, child) :: rest =>
    if keeps (path ++ [name]) then
      if child.collapses (thin keeps (path ++ [name]) child) then thinProperties keeps path rest
      else (name, thin keeps (path ++ [name]) child) :: thinProperties keeps path rest
    else thinProperties keeps path rest

end

variable {keeps : List String → Bool} {path : List String}

/-- What is left of a value inside a container: nothing if it collapses. -/
def remnant (keeps : List String → Bool) (path : List String) (t : Tree) : Option Tree :=
  if t.collapses (t.thin keeps path) then none else some (t.thin keeps path)

/-- What is left of a property of an object at a path. -/
def propertyRemnant (keeps : List String → Bool) (path : List String)
    (property : String × Tree) : Option (String × Tree) :=
  if keeps (path ++ [property.1]) then
    (property.2.remnant keeps (path ++ [property.1])).map (property.1, ·)
  else none

@[simp]
theorem thin_array (items : List Tree) :
    (array items).thin keeps path = array (items.filterMap (remnant keeps path)) := by
  rw [thin]
  congr 1
  induction items with
  | nil => rfl
  | cons item rest ih =>
    by_cases h : item.collapses (item.thin keeps path) = true <;>
      simp [thinItems, remnant, h, ih]

@[simp]
theorem thin_object (properties : Properties Tree) :
    (object properties).thin keeps path =
      object (properties.filterMap (propertyRemnant keeps path)) := by
  rw [thin]
  congr 1
  induction properties with
  | nil => rfl
  | cons property rest ih =>
    obtain ⟨name, child⟩ := property
    by_cases hkeep : keeps (path ++ [name]) = true
    · by_cases h : child.collapses (child.thin keeps (path ++ [name])) = true <;>
        simp [thinProperties, propertyRemnant, remnant, hkeep, h, ih]
    · simp [thinProperties, propertyRemnant, hkeep, ih]

@[simp] theorem shell_thin (t : Tree) : (t.thin keeps path).shell = t.shell := by
  cases t <;> rfl

theorem thin_of_isEmpty {t : Tree} (h : t.isEmpty = true) : t.thin keeps path = t := by
  cases t with
  | scalar s => rfl
  | array items =>
    obtain rfl : items = [] := by simpa using h
    rfl
  | object properties =>
    obtain rfl : properties = [] := by simpa using h
    rfl

/-! ## Two passes -/

/-- If thinning by two tests in turn is thinning by both, then so it is for what is left inside a
container: a value that the first test empties collapses under both, and one that the first leaves
collapses in the second pass exactly if it does under both. -/
theorem remnant_bind_remnant {k₁ k₂ : List String → Bool} {t : Tree}
    (h : (t.thin k₂ path).thin k₁ path = t.thin (fun p => k₁ p && k₂ p) path) :
    (t.remnant k₂ path).bind (remnant k₁ path) =
      t.remnant (fun p => k₁ p && k₂ p) path := by
  by_cases hfirst : t.collapses (t.thin k₂ path) = true
  · -- the second pass finds nothing to thin, so both tests leave what the first leaves
    have hsame : t.thin (fun p => k₁ p && k₂ p) path = t.thin k₂ path := by
      rw [← h]
      apply thin_of_isEmpty
      simp only [collapses, Bool.and_eq_true] at hfirst
      exact hfirst.2
    simp [remnant, hfirst, hsame]
  · have hsecond : (t.thin k₂ path).collapses (t.thin (fun p => k₁ p && k₂ p) path) =
        t.collapses (t.thin (fun p => k₁ p && k₂ p) path) := by
      by_cases hempty : t.isEmpty = true
      · simp [thin_of_isEmpty hempty]
      · -- the first pass has left something, so an empty result of the second counts as emptied
        have hleft : (t.thin k₂ path).isEmpty = false := by
          simpa [collapses, hempty] using hfirst
        simp [collapses, hempty, hleft]
    simp [remnant, hfirst, h, hsecond]

/-- A property that is left by both passes has passed both tests, and its value is what both leave of
it. -/
theorem propertyRemnant_bind {k₁ k₂ : List String → Bool} {property : String × Tree}
    (h : (property.2.remnant k₂ (path ++ [property.1])).bind
        (remnant k₁ (path ++ [property.1])) =
      property.2.remnant (fun p => k₁ p && k₂ p) (path ++ [property.1])) :
    (propertyRemnant k₂ path property).bind (propertyRemnant k₁ path) =
      propertyRemnant (fun p => k₁ p && k₂ p) path property := by
  cases hfirst : k₂ (path ++ [property.1]) with
  | false => simp [propertyRemnant, hfirst]
  | true =>
    -- the name is in front of what is left, so the second pass asks about the same path
    cases hsecond : k₁ (path ++ [property.1]) with
    | false =>
      cases hleft : property.2.remnant k₂ (path ++ [property.1]) <;>
        simp [propertyRemnant, hfirst, hsecond, hleft]
    | true =>
      cases hleft : property.2.remnant k₂ (path ++ [property.1]) <;>
        simp [propertyRemnant, hfirst, hsecond, hleft, ← h]

/-- Thinning by two tests in turn is thinning by both at once. -/
@[simp]
theorem thin_thin (k₁ k₂ : List String → Bool) (path : List String) (t : Tree) :
    (t.thin k₂ path).thin k₁ path = t.thin (fun p => k₁ p && k₂ p) path := by
  induction t using Tree.induct generalizing path with
  | scalar s => rfl
  | array items ih =>
    simp only [thin_array, List.filterMap_filterMap]
    congr 1
    apply List.filterMap_congr
    intro item hitem
    exact remnant_bind_remnant (ih item hitem path)
  | object properties ih =>
    simp only [thin_object, List.filterMap_filterMap]
    congr 1
    apply List.filterMap_congr
    intro property hproperty
    exact propertyRemnant_bind
      (remnant_bind_remnant (ih property hproperty (path ++ [property.1])))

end PartialResponse.Tree
