import PartialResponse.Tree.Basic
import Mathlib.Data.List.Basic

/-!
# PartialResponse.Proofs.Tree.Parts — the parts of a value

A value seen without its nesting: the list of all its parts in document order,
each with the containers around it counted and with the property names met on
the way to it. Array items add nothing to the path. The leaves are the parts
without parts of their own: scalars and empty containers.

The outline of a value is the same list with each part reduced to its kind.
Nothing is lost by that, since a part's level says what holds it
(`outline_injective`).
-/

namespace PartialResponse

namespace Tree

/-- Induction over a value: what holds of all items and of all property values holds of what
holds them. -/
theorem induct {motive : Tree → Prop} (scalar : ∀ s, motive (.scalar s))
    (array : ∀ items : List Tree, (∀ item ∈ items, motive item) → motive (.array items))
    (object : ∀ properties : Properties Tree,
      (∀ property ∈ properties, motive property.2) → motive (.object properties)) :
    ∀ t : Tree, motive t
  | .scalar s => scalar s
  | .array items => array items fun item _ => induct scalar array object item
  | .object properties => object properties fun property hmem => by
      -- a property is a pair, so its value is smaller than the pair, and that than the list
      have hlt : sizeOf property.2 < sizeOf properties := by
        have hle := List.sizeOf_lt_of_mem hmem
        obtain ⟨name, child⟩ := property
        simp only [Prod.mk.sizeOf_spec] at hle ⊢
        omega
      exact induct scalar array object property.2
termination_by t => t

/-- The value without what it holds. -/
def shell : Tree → Tree
  | scalar s => scalar s
  | array _ => array []
  | object _ => object []

@[simp] theorem isEmpty_scalar (s : Scalar) : (scalar s).isEmpty = true := rfl

@[simp] theorem isEmpty_array (items : List Tree) : (array items).isEmpty = items.isEmpty := by
  cases items <;> rfl

@[simp] theorem isEmpty_object (properties : Properties Tree) :
    (object properties).isEmpty = properties.isEmpty := by
  cases properties <;> rfl

/-- A value that holds nothing is its own shell. -/
theorem shell_of_isEmpty {t : Tree} (h : t.isEmpty = true) : t.shell = t := by
  cases t with
  | scalar s => rfl
  | array items =>
    obtain rfl : items = [] := by simpa using h
    rfl
  | object properties =>
    obtain rfl : properties = [] := by simpa using h
    rfl

end Tree

/-- A part of a value. -/
structure Part where
  /-- How many containers lie around the part. -/
  level : Nat
  /-- The property names met on the way to the part. -/
  path : List String
  value : Tree

namespace Tree

mutual

/-- The parts inside a value that lies at the given level and path, in document order. -/
def partsBelow (level : Nat) (path : List String) : Tree → List Part
  | scalar _ => []
  | array items => partsOfItems (level + 1) path items
  | object properties => partsOfProperties (level + 1) path properties

/-- The items, each followed by the parts inside it. -/
def partsOfItems (level : Nat) (path : List String) : List Tree → List Part
  | [] => []
  | item :: rest =>
    ⟨level, path, item⟩ :: (partsBelow level path item ++ partsOfItems level path rest)

/-- The property values, each followed by the parts inside it. -/
def partsOfProperties (level : Nat) (path : List String) : Properties Tree → List Part
  | [] => []
  | (name, child) :: rest =>
    ⟨level, path ++ [name], child⟩ ::
      (partsBelow level (path ++ [name]) child ++ partsOfProperties level path rest)

end

/-- All parts of a value: the value itself and the parts inside it. -/
def parts (t : Tree) : List Part :=
  ⟨0, [], t⟩ :: partsBelow 0 [] t

end Tree

namespace Part

/-- The part and the parts inside it. -/
def parts (p : Part) : List Part :=
  p :: p.value.partsBelow p.level p.path

/-- The leaves of the part: those of its parts that hold nothing. -/
def leaves (p : Part) : List Part :=
  p.parts.filter (·.value.isEmpty)

/-- The part without what it holds. -/
def shell (p : Part) : Part :=
  { p with value := p.value.shell }

/-- The part and the parts inside it, each without what it holds. -/
def outline (p : Part) : List Part :=
  p.parts.map shell

end Part

namespace Tree

/-- The leaves of a value: scalars and empty containers. -/
def leaves (t : Tree) : List Part :=
  t.parts.filter (·.value.isEmpty)

/-- The parts of a value, each without what it holds. -/
def outline (t : Tree) : List Part :=
  t.parts.map Part.shell

end Tree

namespace Part

/-- The items of an array or the property values of an object, as parts. -/
def children (p : Part) : List Part :=
  match p.value with
  | .scalar _ => []
  | .array items => items.map fun item => ⟨p.level + 1, p.path, item⟩
  | .object properties =>
    properties.map fun property => ⟨p.level + 1, p.path ++ [property.1], property.2⟩

/-- The parts in items are those of each item in turn. -/
theorem partsOfItems_eq_flatMap (level : Nat) (path : List String) (items : List Tree) :
    Tree.partsOfItems level path items =
      (items.map fun item => (⟨level, path, item⟩ : Part)).flatMap parts := by
  induction items with
  | nil => rfl
  | cons item rest ih => simp [Tree.partsOfItems, parts, ih]

/-- The parts in properties are those of each property in turn. -/
theorem partsOfProperties_eq_flatMap (level : Nat) (path : List String)
    (properties : Properties Tree) :
    Tree.partsOfProperties level path properties =
      (properties.map fun property =>
        (⟨level, path ++ [property.1], property.2⟩ : Part)).flatMap parts := by
  induction properties with
  | nil => rfl
  | cons property rest ih => simp [Tree.partsOfProperties, parts, ih]

/-- What lies inside a part lies inside one of its children. -/
theorem partsBelow_eq_flatMap (p : Part) :
    p.value.partsBelow p.level p.path = p.children.flatMap parts := by
  obtain ⟨level, path, value⟩ := p
  cases value with
  | scalar s => rfl
  | array items => exact partsOfItems_eq_flatMap (level + 1) path items
  | object properties => exact partsOfProperties_eq_flatMap (level + 1) path properties

/-- The parts of a part are the part itself and then the parts of its children, one after the
other. -/
theorem parts_eq (p : Part) : p.parts = p :: p.children.flatMap parts := by
  rw [parts, partsBelow_eq_flatMap]

/-- Induction over parts: what holds of all children of a part holds of the part. -/
theorem induct {motive : Part → Prop}
    (step : ∀ p, (∀ child ∈ p.children, motive child) → motive p) (p : Part) : motive p := by
  obtain ⟨level, path, value⟩ := p
  induction value using Tree.induct generalizing level path with
  | scalar s =>
    apply step
    intro child hchild
    simp [children] at hchild
  | array items ih =>
    apply step
    intro child hchild
    obtain ⟨item, hitem, rfl⟩ := List.mem_map.1 hchild
    exact ih item hitem _ _
  | object properties ih =>
    apply step
    intro child hchild
    obtain ⟨property, hproperty, rfl⟩ := List.mem_map.1 hchild
    exact ih property hproperty _ _

/-- A part has no children just if it holds nothing. -/
theorem children_eq_nil {p : Part} : p.children = [] ↔ p.value.isEmpty = true := by
  obtain ⟨level, path, value⟩ := p
  cases value <;> simp [children]

/-! ## What lies inside a part -/

/-- Children lie one level further in. -/
theorem level_of_mem_children {p child : Part} (h : child ∈ p.children) :
    child.level = p.level + 1 := by
  obtain ⟨level, path, value⟩ := p
  cases value with
  | scalar s => simp [children] at h
  | array items =>
    obtain ⟨item, _, rfl⟩ := List.mem_map.1 h
    rfl
  | object properties =>
    obtain ⟨property, _, rfl⟩ := List.mem_map.1 h
    rfl

/-- The path to a child goes on from the path to the part. -/
theorem path_prefix_of_mem_children {p child : Part} (h : child ∈ p.children) :
    p.path <+: child.path := by
  obtain ⟨level, path, value⟩ := p
  cases value with
  | scalar s => simp [children] at h
  | array items =>
    obtain ⟨item, _, rfl⟩ := List.mem_map.1 h
    exact List.prefix_rfl
  | object properties =>
    obtain ⟨property, _, rfl⟩ := List.mem_map.1 h
    exact List.prefix_append _ _

/-- Among the parts are the part itself and those of its children. -/
theorem mem_parts {p q : Part} :
    q ∈ p.parts ↔ q = p ∨ ∃ child ∈ p.children, q ∈ child.parts := by
  rw [parts_eq, List.mem_cons, List.mem_flatMap]

/-- Nothing inside a part lies further out. -/
theorem level_le_of_mem_parts {p q : Part} (h : q ∈ p.parts) : p.level ≤ q.level := by
  -- along the containers: a part is the whole, or lies inside a child
  induction p using induct with
  | step p ih =>
    rcases mem_parts.1 h with rfl | ⟨child, hchild, hin⟩
    · exact Nat.le_refl _
    · have hle := ih child hchild hin
      have hlevel := level_of_mem_children hchild
      omega

/-- The path to a part begins every path to a part inside it. -/
theorem path_prefix_of_mem_parts {p q : Part} (h : q ∈ p.parts) : p.path <+: q.path := by
  induction p using induct with
  | step p ih =>
    rcases mem_parts.1 h with rfl | ⟨child, hchild, hin⟩
    · exact List.prefix_rfl
    · exact (path_prefix_of_mem_children hchild).trans (ih child hchild hin)

/-- What lies inside a part of a part lies inside the part. -/
theorem parts_trans {p q r : Part} (hq : q ∈ p.parts) (hr : r ∈ q.parts) : r ∈ p.parts := by
  induction p using induct with
  | step p ih =>
    rcases mem_parts.1 hq with rfl | ⟨child, hchild, hin⟩
    · exact hr
    · exact mem_parts.2 (Or.inr ⟨child, hchild, ih child hchild hin⟩)

/-! ## Leaves -/

theorem mem_leaves {p q : Part} : q ∈ p.leaves ↔ q ∈ p.parts ∧ q.value.isEmpty = true := by
  simp [leaves]

/-- A leaf of a part inside is a leaf of the part. -/
theorem leaves_trans {p q r : Part} (hq : q ∈ p.parts) (hr : r ∈ q.leaves) : r ∈ p.leaves := by
  rw [mem_leaves] at hr ⊢
  exact ⟨parts_trans hq hr.1, hr.2⟩

/-- A part that holds nothing is its only leaf. -/
theorem leaves_of_isEmpty {p : Part} (h : p.value.isEmpty = true) : p.leaves = [p] := by
  rw [leaves, parts_eq, children_eq_nil.2 h]
  simp [h]

/-- The leaves of a part that holds something are the leaves of its children. -/
theorem leaves_of_not_isEmpty {p : Part} (h : p.value.isEmpty = false) :
    p.leaves = p.children.flatMap leaves := by
  rw [leaves, parts_eq, List.filter_cons_of_neg (by simp [h]), List.filter_flatMap]
  rfl

/-! ## The outline -/

/-- An outline starts with the part itself; what follows are the outlines of its children. -/
theorem outline_eq (p : Part) : p.outline = p.shell :: p.children.flatMap outline := by
  rw [outline, parts_eq, List.map_cons, List.map_flatMap]
  rfl

/-- What stands inside a part has a higher level. -/
theorem level_lt_of_mem_outline_children {p q : Part} (h : q ∈ p.children.flatMap outline) :
    p.level < q.level := by
  obtain ⟨child, hchild, hin⟩ := List.mem_flatMap.1 h
  obtain ⟨part, hpart, rfl⟩ := List.mem_map.1 hin
  have hlevel := level_of_mem_children hchild
  have hle := level_le_of_mem_parts hpart
  have hshell : part.shell.level = part.level := rfl
  omega

/-- Where outlines of parts of one level stand in a row, what stands inside the first part is what
stands in front of the next entry of that level. -/
theorem takeWhile_level_outline {level : Nat} {p : Part} {ps : List Part} (hp : p.level = level)
    (hps : ∀ q ∈ ps, q.level = level) :
    (p.children.flatMap outline ++ ps.flatMap outline).takeWhile (level < ·.level) =
      p.children.flatMap outline := by
  have hinside : ∀ q ∈ p.children.flatMap outline, decide (level < q.level) = true := by
    intro q hq
    rw [decide_eq_true_iff, ← hp]
    exact level_lt_of_mem_outline_children hq
  rw [List.takeWhile_append_of_pos hinside]
  cases ps with
  | nil => simp
  | cons next rest =>
    have hnext : next.shell.level = level := hps next List.mem_cons_self
    simp [outline_eq, hnext]

/-- Where outlines of parts of one level stand in a row, the levels tell where each ends. -/
theorem map_outline_of_flatMap_eq {level : Nat} {ps qs : List Part}
    (hps : ∀ p ∈ ps, p.level = level) (hqs : ∀ q ∈ qs, q.level = level)
    (h : ps.flatMap outline = qs.flatMap outline) : ps.map outline = qs.map outline := by
  induction ps generalizing qs with
  | nil =>
    cases qs with
    | nil => rfl
    | cons q qs => simp [outline_eq] at h
  | cons p ps ih =>
    cases qs with
    | nil => simp [outline_eq] at h
    | cons q qs =>
      have hp := hps p List.mem_cons_self
      have hq := hqs q List.mem_cons_self
      have hps' : ∀ p ∈ ps, p.level = level := fun p hp => hps p (List.mem_cons_of_mem _ hp)
      have hqs' : ∀ q ∈ qs, q.level = level := fun q hq => hqs q (List.mem_cons_of_mem _ hq)
      simp only [List.flatMap_cons, outline_eq p, outline_eq q, List.cons_append, List.cons.injEq]
        at h
      -- both insides end at the next entry of the level
      have hinside : p.children.flatMap outline = q.children.flatMap outline := by
        rw [← takeWhile_level_outline hp hps', h.2, takeWhile_level_outline hq hqs']
      rw [hinside, List.append_cancel_left_eq] at h
      rw [List.map_cons, List.map_cons, ih hps' hqs' h.2, outline_eq p, outline_eq q, h.1, hinside]

/-- A part is known by its level, path and kind and by its children. -/
theorem eq_of_shell_eq {p q : Part} (hshell : p.shell = q.shell) (h : p.children = q.children) :
    p = q := by
  obtain ⟨level, path, value⟩ := p
  obtain ⟨level', path', value'⟩ := q
  simp only [shell, Part.mk.injEq] at hshell
  obtain ⟨rfl, rfl, hvalue⟩ := hshell
  cases value <;> cases value' <;> simp [Tree.shell] at hvalue
  case scalar.scalar => rw [hvalue]
  case array.array items others =>
    have hinj : Function.Injective fun item => (⟨level + 1, path, item⟩ : Part) :=
      fun _ _ he => congrArg Part.value he
    rw [List.map_injective_iff.2 hinj h]
  case object.object properties others =>
    have hinj : Function.Injective fun property : String × Tree =>
        (⟨level + 1, path ++ [property.1], property.2⟩ : Part) := by
      -- the path to a property ends with its name
      rintro ⟨name, child⟩ ⟨name', child'⟩ he
      simpa using he
    rw [List.map_injective_iff.2 hinj h]

/-- The outline tells the part: its first entry gives level, path and kind, and the rest falls into
the outlines of the children. -/
theorem outline_injective : Function.Injective outline := by
  intro p
  induction p using induct with
  | step p ih =>
    intro q h
    rw [outline_eq, outline_eq, List.cons.injEq] at h
    have hlevel : p.level = q.level := by
      have hshell := congrArg Part.level h.1
      exact hshell
    have hmap := map_outline_of_flatMap_eq (fun _ => level_of_mem_children)
      (fun child hchild => hlevel ▸ level_of_mem_children hchild) h.2
    apply eq_of_shell_eq h.1
    -- the outlines of the children agree one by one, and each tells its child
    refine List.ext_getElem (by simpa using congrArg List.length hmap) ?_
    intro i hp hq
    apply ih _ (List.getElem_mem hp)
    have hi := List.getElem_of_eq hmap (by simpa using hp)
    simpa using hi

end Part

/-- The outline tells the value. -/
theorem Tree.outline_injective : Function.Injective outline := by
  intro t u h
  have hroot : (⟨0, [], t⟩ : Part) = ⟨0, [], u⟩ := Part.outline_injective h
  exact congrArg Part.value hroot

end PartialResponse
