import PartialResponse.Proofs.Prune.Refinement
import PartialResponse.Proofs.Selector.Prefix

/-!
# PartialResponse.Proofs.Prune.Leaves — what pruning leaves

The pass decides property by property on the way down and takes emptied
containers away on the way up. What comes out can be said of leaves alone: a leaf
is left exactly if its path is selected, and a container is left exactly if a
selected leaf lies inside it.

The proof goes over parts. If whatever lies above a selected path is selected, a
part remains exactly if a leaf that is left lies inside it (`remains_iff_holds`);
from that follows what the parts of a thinned value are (`parts_thin`). Main
statement: `eq_prune_iff_reducesTo`.
-/

namespace PartialResponse

/-- Whether a leaf at the path is left: its path is that of the root, or passes the test. -/
def shown (keeps : List String → Bool) (path : List String) : Bool :=
  path.isEmpty || keeps path

namespace Part

variable {keeps : List String → Bool} {p : Part}

theorem flatMap_filter_map {α β γ : Type} {f : α → β} {g : β → List γ} {k : α → List γ}
    {r : α → Bool} {xs : List α} (h : ∀ x ∈ xs, k x = if r x then g (f x) else []) :
    ((xs.filter r).map f).flatMap g = xs.flatMap k := by
  induction xs with
  | nil => rfl
  | cons x xs ih =>
    have hx := h x List.mem_cons_self
    have hrest := ih fun y hy => h y (List.mem_cons_of_mem x hy)
    by_cases hr : r x = true <;> simp [hr, hx, hrest]

/-- What thinning makes of a part. -/
def thin (keeps : List String → Bool) (p : Part) : Part :=
  { p with value := p.value.thin keeps p.path }

/-- Whether the part is left in what holds it. -/
def remains (keeps : List String → Bool) (p : Part) : Bool :=
  shown keeps p.path && !p.value.collapses (p.value.thin keeps p.path)

/-- Whether a leaf that is left lies inside the part. -/
def holdsShown (keeps : List String → Bool) (p : Part) : Bool :=
  p.leaves.any fun leaf => shown keeps leaf.path

@[simp] theorem shell_thin (p : Part) : (p.thin keeps).shell = p.shell := by
  simp [thin, shell]

theorem thin_of_isEmpty (h : p.value.isEmpty = true) : p.thin keeps = p := by
  rw [thin, Tree.thin_of_isEmpty h]

/-- The children of a thinned part are those that remain, thinned. -/
theorem children_thin (hshown : shown keeps p.path = true) :
    (p.thin keeps).children = (p.children.filter (remains keeps)).map (thin keeps) := by
  obtain ⟨level, path, value⟩ := p
  cases value with
  | scalar s => rfl
  | array items =>
    have hpath : shown keeps path = true := hshown
    clear hshown
    simp only [thin, Tree.thin_array, children]
    -- items lie at the path of the array, so only their own content counts
    induction items with
    | nil => rfl
    | cons item rest ih =>
      by_cases h : item.collapses (item.thin keeps path) = true
      · simpa [Tree.remnant, remains, h] using ih
      · simpa [Tree.remnant, remains, thin, h, hpath] using ih
  | object properties =>
    clear hshown
    simp only [thin, Tree.thin_object, children]
    -- a property may be dropped for its path or for what is left of its value
    induction properties with
    | nil => rfl
    | cons property rest ih =>
      obtain ⟨name, child⟩ := property
      by_cases hkeep : keeps (path ++ [name]) = true
      · by_cases h : child.collapses (child.thin keeps (path ++ [name])) = true
        · simpa [Tree.propertyRemnant, Tree.remnant, remains, hkeep, h] using ih
        · simpa [Tree.propertyRemnant, Tree.remnant, remains, thin, shown, hkeep, h] using ih
      · simpa [Tree.propertyRemnant, remains, shown, hkeep] using ih

/-- A part holds a leaf that is left if a part inside it does. -/
theorem holdsShown_of_mem_parts {q : Part} (hq : q ∈ p.parts) (h : q.holdsShown keeps = true) :
    p.holdsShown keeps = true := by
  rw [holdsShown, List.any_eq_true] at h ⊢
  obtain ⟨leaf, hleaf, hshown⟩ := h
  exact ⟨leaf, leaves_trans hq hleaf, hshown⟩

section Closed

variable (hclosed : ∀ path below, keeps (path ++ below) = true → keeps path = true)

include hclosed

theorem shown_of_begins {path longer : List String} (hbegins : path <+: longer)
    (h : shown keeps longer = true) : shown keeps path = true := by
  obtain ⟨below, rfl⟩ := hbegins
  cases path with
  | nil => rfl
  | cons name path => exact hclosed (name :: path) below h

/-- Nothing is left inside a part whose path fails the test. -/
theorem holdsShown_of_not_shown (h : shown keeps p.path = false) : p.holdsShown keeps = false := by
  rw [holdsShown, List.any_eq_false]
  intro leaf hleaf hshown
  have hbegins := path_prefix_of_mem_parts (mem_leaves.1 hleaf).1
  rw [shown_of_begins hclosed hbegins hshown] at h
  contradiction

/-- A part remains exactly if a leaf that is left lies inside it. -/
theorem remains_iff_holds (p : Part) : p.remains keeps = p.holdsShown keeps := by
  induction p using Part.induct with
  | step p ih =>
    cases hshown : shown keeps p.path with
    | false => rw [remains, hshown, holdsShown_of_not_shown hclosed hshown, Bool.false_and]
    | true =>
      cases hempty : p.value.isEmpty with
      | true =>
        -- a leaf is its own witness, and cannot collapse
        simp [remains, holdsShown, leaves_of_isEmpty hempty, Tree.collapses, hempty, hshown]
      | false =>
        -- what remains of the children decides both whether anything is left and what is held
        have hafter : (p.thin keeps).value.isEmpty = true ↔
            ∀ child ∈ p.children, child.holdsShown keeps = false := by
          rw [← children_eq_nil, children_thin hshown, List.map_eq_nil_iff, List.filter_eq_nil_iff]
          refine forall₂_congr fun child hchild => ?_
          rw [ih child hchild, Bool.not_eq_true]
        have hholds : p.holdsShown keeps = p.children.any (holdsShown keeps) := by
          rw [holdsShown, leaves_of_not_isEmpty hempty, List.any_flatMap]
          rfl
        rw [remains, hshown, Tree.collapses, hempty, hholds]
        cases hany : p.children.any (holdsShown keeps) with
        | true =>
          have : (p.thin keeps).value.isEmpty = false := by
            rw [← Bool.not_eq_true, hafter]
            simpa using hany
          simpa [thin] using this
        | false =>
          have : (p.thin keeps).value.isEmpty = true := by
            rw [hafter]
            simpa using hany
          simpa [thin] using this

/-- The parts inside a thinned part are the parts inside it that hold a leaf that is left,
thinned. -/
theorem parts_thin (hshown : shown keeps p.path = true) :
    (p.thin keeps).children.flatMap parts =
      ((p.children.flatMap parts).filter (holdsShown keeps)).map (thin keeps) := by
  induction p using Part.induct with
  | step p ih =>
    rw [children_thin hshown, List.filter_flatMap, List.map_flatMap]
    apply flatMap_filter_map
    intro child hchild
    cases hremains : child.remains keeps with
    | false =>
      -- a child that goes takes all its parts with it, and none of them holds a leaf that is left
      rw [remains_iff_holds hclosed] at hremains
      have hnone : child.parts.filter (holdsShown keeps) = [] := by
        rw [List.filter_eq_nil_iff]
        intro q hq hholds
        rw [holdsShown_of_mem_parts hq hholds] at hremains
        contradiction
      simp [hnone]
    | true =>
      have hpath : shown keeps child.path = true := by
        rw [remains, Bool.and_eq_true] at hremains
        exact hremains.1
      rw [remains_iff_holds hclosed] at hremains
      rw [if_pos rfl, parts_eq (child.thin keeps), ih child hchild hpath, parts_eq child,
        List.filter_cons_of_pos hremains, List.map_cons]

/-- The part and the parts inside it, when a leaf that is left lies inside it. -/
theorem parts_thin_of_holds (hholds : p.holdsShown keeps = true) :
    (p.thin keeps).parts = (p.parts.filter (holdsShown keeps)).map (thin keeps) := by
  have hremains := remains_iff_holds hclosed p
  rw [hholds, remains, Bool.and_eq_true] at hremains
  rw [parts_eq (p.thin keeps), parts_thin hclosed hremains.1, parts_eq p,
    List.filter_cons_of_pos hholds, List.map_cons]

/-- A part that holds a leaf that is left and is empty after thinning was empty before. -/
theorem isEmpty_of_isEmpty_thin (hholds : p.holdsShown keeps = true)
    (hempty : (p.thin keeps).value.isEmpty = true) : p.value.isEmpty = true := by
  have hremains := remains_iff_holds hclosed p
  rw [hholds, remains, Bool.and_eq_true] at hremains
  have hafter : (p.value.thin keeps p.path).isEmpty = true := hempty
  simpa [Tree.collapses, hafter] using hremains.2

/-- What is empty after thinning and holds a leaf that is left is a leaf that is left. -/
theorem isEmpty_thin_and_holds (p : Part) :
    ((p.thin keeps).value.isEmpty && p.holdsShown keeps) =
      (shown keeps p.path && p.value.isEmpty) := by
  cases hempty : p.value.isEmpty with
  | true => simp [thin_of_isEmpty hempty, hempty, holdsShown, leaves_of_isEmpty hempty]
  | false =>
    rw [Bool.and_false, Bool.and_eq_false_iff, ← Bool.not_eq_true, ← Bool.not_eq_true]
    by_cases hholds : p.holdsShown keeps = true
    · left
      intro hafter
      rw [isEmpty_of_isEmpty_thin hclosed hholds hafter] at hempty
      contradiction
    · exact Or.inr hholds

/-- The leaves of a thinned part are those of the part that are left, as they were. -/
theorem leaves_thin (hholds : p.holdsShown keeps = true) :
    (p.thin keeps).leaves = p.leaves.filter fun leaf => shown keeps leaf.path := by
  rw [leaves, parts_thin_of_holds hclosed hholds, List.filter_map, List.filter_filter, leaves,
    List.filter_filter]
  -- thinning changes no leaf
  have hunchanged : ∀ q ∈ p.parts.filter (fun q => shown keeps q.path && q.value.isEmpty),
      q.thin keeps = q := by
    intro q hq
    rw [List.mem_filter, Bool.and_eq_true] at hq
    exact thin_of_isEmpty hq.2.2
  calc (p.parts.filter fun q => (q.thin keeps).value.isEmpty && q.holdsShown keeps).map (thin keeps)
      = (p.parts.filter fun q => shown keeps q.path && q.value.isEmpty).map (thin keeps) := by
        rw [List.filter_congr fun q _ => isEmpty_thin_and_holds hclosed q]
    _ = (p.parts.filter fun q => shown keeps q.path && q.value.isEmpty).map id :=
        List.map_congr_left hunchanged
    _ = p.parts.filter fun q => shown keeps q.path && q.value.isEmpty := List.map_id _

end Closed

end Part

namespace Tree

/-- What is left of a value if of its leaves exactly those with a path that shows are left. -/
structure ReducesTo (shows : List String → Prop) [DecidablePred shows] (t u : Tree) : Prop where
  /-- The leaves that show are left, in their order, each with its value and path. -/
  leaves_eq : (∃ leaf ∈ t.leaves, shows leaf.path) →
    u.leaves = t.leaves.filter fun leaf => shows leaf.path
  /-- If no leaf shows, the root is left and holds nothing. -/
  eq_shell : (∀ leaf ∈ t.leaves, ¬ shows leaf.path) → u = t.shell
  /-- The root is left, and of the other parts those that a leaf lies in that shows, in their order,
  each at its level and path and of its kind. -/
  outline_eq : u.outline = (t.parts.filter fun p =>
    p.level = 0 ∨ ∃ leaf ∈ p.leaves, shows leaf.path).map Part.shell
  /-- What is empty below the root was there before and was empty. -/
  mem_parts_of_isEmpty : ∀ p ∈ u.parts, p.level ≠ 0 → p.value.isEmpty = true → p ∈ t.parts

section Closed

variable {keeps : List String → Bool} {t : Tree}
  (hclosed : ∀ path below, keeps (path ++ below) = true → keeps path = true)

include hclosed

/-- The parts of a thinned root: the root, whatever is left of it, and the parts inside it that hold
a leaf that is left, thinned. -/
theorem parts_thin :
    (t.thin keeps []).parts =
      (t.parts.filter fun p => decide (p.level = 0) || p.holdsShown keeps).map (Part.thin keeps) := by
  -- only the root has level 0, so below it the first condition says nothing
  have hbelow : ∀ p ∈ (⟨0, [], t⟩ : Part).children.flatMap Part.parts,
      (decide (p.level = 0) || p.holdsShown keeps) = p.holdsShown keeps := by
    intro p hp
    obtain ⟨child, hchild, hin⟩ := List.mem_flatMap.1 hp
    have hlevel := Part.level_of_mem_children hchild
    have hle := Part.level_le_of_mem_parts hin
    have hne : p.level ≠ 0 := by omega
    simp [hne]
  have hroot : t.parts = (⟨0, [], t⟩ : Part) :: (⟨0, [], t⟩ : Part).children.flatMap Part.parts :=
    Part.parts_eq ⟨0, [], t⟩
  calc (t.thin keeps []).parts
      = (⟨0, [], t⟩ : Part).thin keeps ::
          ((⟨0, [], t⟩ : Part).thin keeps).children.flatMap Part.parts :=
        Part.parts_eq ((⟨0, [], t⟩ : Part).thin keeps)
    _ = (⟨0, [], t⟩ : Part).thin keeps :: (((⟨0, [], t⟩ : Part).children.flatMap Part.parts).filter
          (Part.holdsShown keeps)).map (Part.thin keeps) := by
        rw [Part.parts_thin hclosed rfl]
    _ = _ := by
        rw [hroot, List.filter_cons_of_pos rfl, List.map_cons, List.filter_congr hbelow]

/-- If no leaf of a root is left, the thinned root holds nothing. -/
theorem thin_eq_shell (hnone : (⟨0, [], t⟩ : Part).holdsShown keeps = false) :
    t.thin keeps [] = t.shell := by
  have hcollapses : t.collapses (t.thin keeps []) = true := by
    have hremains := Part.remains_iff_holds hclosed ⟨0, [], t⟩
    simpa [hnone, Part.remains, shown] using hremains
  rw [collapses, Bool.and_eq_true] at hcollapses
  rw [← shell_of_isEmpty hcollapses.2, shell_thin]

/-- Thinning leaves parts out and changes no level, path or kind of the others. -/
theorem outline_thin :
    (t.thin keeps []).outline =
      (t.parts.filter fun p => decide (p.level = 0) || p.holdsShown keeps).map Part.shell := by
  rw [outline, parts_thin hclosed, List.map_map]
  apply List.map_congr_left
  intro p _
  exact Part.shell_thin p

/-- What is empty below a thinned root was there before. -/
theorem mem_parts_of_mem_parts_thin {p : Part} (hp : p ∈ (t.thin keeps []).parts)
    (hlevel : p.level ≠ 0) (hempty : p.value.isEmpty = true) : p ∈ t.parts := by
  rw [parts_thin hclosed, List.mem_map] at hp
  obtain ⟨q, hq, rfl⟩ := hp
  rw [List.mem_filter, Bool.or_eq_true, decide_eq_true_iff] at hq
  have hholds : q.holdsShown keeps = true := hq.2.resolve_left hlevel
  rw [Part.thin_of_isEmpty (Part.isEmpty_of_isEmpty_thin hclosed hholds hempty)]
  exact hq.1

/-- Thinning reduces a value to the leaves whose paths pass the test, and to those at the path of
the root. -/
theorem reducesTo_thin {shows : List String → Prop} [DecidablePred shows]
    (hshows : ∀ path, shows path ↔ shown keeps path = true) :
    t.ReducesTo shows (t.thin keeps []) := by
  -- the test as it is stated and as it is computed
  have hholds : ∀ p : Part, p.holdsShown keeps = true ↔ ∃ leaf ∈ p.leaves, shows leaf.path := by
    intro p
    simp only [Part.holdsShown, List.any_eq_true, hshows]
  refine ⟨?_, ?_, ?_, ?_⟩
  · intro hleaf
    have hthin := Part.leaves_thin hclosed ((hholds ⟨0, [], t⟩).2 hleaf)
    refine Eq.trans hthin (List.filter_congr ?_)
    intro leaf _
    simp [hshows]
  · intro hnone
    apply thin_eq_shell hclosed
    rw [← Bool.not_eq_true, hholds]
    rintro ⟨leaf, hleaf, hshown⟩
    exact hnone leaf hleaf hshown
  · rw [outline_thin hclosed]
    congr 1
    apply List.filter_congr
    intro p _
    rw [Bool.eq_iff_iff, Bool.or_eq_true, decide_eq_true_iff, decide_eq_true_iff, hholds]
  · intro p hp hlevel hempty
    exact mem_parts_of_mem_parts_thin hclosed hp hlevel hempty

end Closed

/-- A value can be reduced to given leaves in one way only. -/
theorem ReducesTo.unique {shows : List String → Prop} [DecidablePred shows] {t u w : Tree}
    (hu : t.ReducesTo shows u) (hw : t.ReducesTo shows w) : u = w :=
  outline_injective (hu.outline_eq.trans hw.outline_eq.symm)

/-- What pruning leaves of a value is the value reduced to the leaves that the criterion selects
and to those at the path of the root, and nothing else is. -/
theorem eq_prune_iff_reducesTo (c : Criterion) (t u : Tree) :
    u = t.prune c ↔ t.ReducesTo (fun path => path = [] ∨ c.Selects path) u := by
  have hreduces : t.ReducesTo (fun path => path = [] ∨ c.Selects path) (t.prune c) := by
    rw [prune_eq_thin]
    apply reducesTo_thin
    · intro path below h
      exact Criterion.keeps_of_append h
    · intro path
      rw [shown, Bool.or_eq_true, List.isEmpty_iff, Criterion.keeps_iff_selects]
  constructor
  · rintro rfl
    exact hreduces
  · intro hu
    exact hu.unique hreduces

end Tree

end PartialResponse
