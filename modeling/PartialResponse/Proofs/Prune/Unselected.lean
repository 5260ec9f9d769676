import PartialResponse.Document.Writer
import PartialResponse.Proofs.Prune.Refinement
import PartialResponse.Proofs.Selector.Prefix
import PartialResponse.Text.Utf8

/-!
# PartialResponse.Proofs.Prune.Unselected — what is not selected does not show

Two values that differ only in properties that are not selected are pruned to the
same value. What an unselected property holds never matters. Whether it is there
matters in one way only: a container that it alone keeps from being empty would
count as emptied, and go, where the other value has an empty container, which
stays. So the two values have to be empty at the same places, the root apart.

Main statement: `prune_eq_of_agree`.
-/

namespace PartialResponse.Tree

mutual

/-- Two values at a path are alike apart from properties that are not selected. -/
inductive AgreeAt (c : Criterion) : List String → Tree → Tree → Prop
  | scalar {path : List String} (s : Scalar) : AgreeAt c path (.scalar s) (.scalar s)
  | array {path : List String} {items others : List Tree} : AgreeItems c path items others →
      AgreeAt c path (.array items) (.array others)
  | object {path : List String} {properties others : Properties Tree} :
      AgreeProperties c path properties others →
      AgreeAt c path (.object properties) (.object others)

/-- Two lists of items are alike item by item, and the items are empty at the same places. -/
inductive AgreeItems (c : Criterion) : List String → List Tree → List Tree → Prop
  | nil {path : List String} : AgreeItems c path [] []
  | cons {path : List String} {item other : Tree} {rest others : List Tree} :
      item.isEmpty = other.isEmpty → AgreeAt c path item other → AgreeItems c path rest others →
      AgreeItems c path (item :: rest) (other :: others)

/-- The selected properties of two objects are the same in the same order, with values that are alike
and empty at the same places. Between them either object may have properties of its own that are
not selected; a property with another value in the second object is one that each has of its
own. -/
inductive AgreeProperties (c : Criterion) : List String → Properties Tree → Properties Tree → Prop
  | nil {path : List String} : AgreeProperties c path [] []
  | selected {path : List String} {name : String} {child other : Tree}
      {rest others : Properties Tree} : c.Selects (path ++ [name]) →
      child.isEmpty = other.isEmpty → AgreeAt c (path ++ [name]) child other →
      AgreeProperties c path rest others →
      AgreeProperties c path ((name, child) :: rest) ((name, other) :: others)
  | first {path : List String} {name : String} {child : Tree} {rest others : Properties Tree} :
      ¬ c.Selects (path ++ [name]) → AgreeProperties c path rest others →
      AgreeProperties c path ((name, child) :: rest) others
  | second {path : List String} {name : String} {other : Tree} {rest others : Properties Tree} :
      ¬ c.Selects (path ++ [name]) → AgreeProperties c path rest others →
      AgreeProperties c path rest ((name, other) :: others)

end

variable {c : Criterion}

/-- A property that is not selected leaves nothing, whatever its value. -/
theorem thinProperties_of_not_selects {path : List String} {name : String} {child : Tree}
    {rest : Properties Tree} (h : ¬ c.Selects (path ++ [name])) :
    thinProperties c.keeps path ((name, child) :: rest) = thinProperties c.keeps path rest := by
  have hkeeps : c.keeps (path ++ [name]) ≠ true := mt Criterion.keeps_iff_selects.1 h
  rw [thinProperties, if_neg hkeeps]

mutual

/-- Thinning makes one value of two that are alike. -/
theorem AgreeAt.thin_eq {path : List String} {v w : Tree} :
    AgreeAt c path v w → v.thin c.keeps path = w.thin c.keeps path
  | .scalar s => rfl
  | .array hitems => congrArg Tree.array hitems.thinItems_eq
  | .object hproperties => congrArg Tree.object hproperties.thinProperties_eq

theorem AgreeItems.thinItems_eq {path : List String} {items others : List Tree} :
    AgreeItems c path items others → thinItems c.keeps path items = thinItems c.keeps path others
  | .nil => rfl
  | .cons hempty hitem hrest => by
      -- one of the two collapses if and only if the other does
      rw [thinItems, thinItems, collapses, collapses, hempty, hitem.thin_eq, hrest.thinItems_eq]

theorem AgreeProperties.thinProperties_eq {path : List String} {properties others : Properties Tree} :
    AgreeProperties c path properties others →
      thinProperties c.keeps path properties = thinProperties c.keeps path others
  | .nil => rfl
  | .selected hselects hempty hchild hrest => by
      have hkeeps := Criterion.keeps_iff_selects.2 hselects
      rw [thinProperties, thinProperties, if_pos hkeeps, if_pos hkeeps, collapses, collapses, hempty,
        hchild.thin_eq, hrest.thinProperties_eq]
  | .first hnot hrest => (thinProperties_of_not_selects hnot).trans hrest.thinProperties_eq
  | .second hnot hrest => hrest.thinProperties_eq.trans (thinProperties_of_not_selects hnot).symm

end

/-- Values that are alike apart from what is not selected are pruned to the same value, with the same
order of properties, and so to the same bytes in every format and for every configuration, or to none
for both. -/
theorem prune_eq_of_agree (c : Criterion) (v w : Tree) (h : AgreeAt c [] v w) :
    v.prune c = w.prune c ∧
      ∀ format config,
        ((Document.single (v.prune c)).write? format config).map Text.Utf8.encode =
          ((Document.single (w.prune c)).write? format config).map Text.Utf8.encode := by
  have hsame : v.prune c = w.prune c := by
    rw [prune_eq_thin, prune_eq_thin, h.thin_eq]
  refine ⟨hsame, ?_⟩
  intro format config
  rw [hsame]

/-- Under the selection `a/b`, an unselected property in front, one with another value, one that is
missing and an array whose objects differ in what they have besides. -/
theorem prune_eq_of_agree_besides :
    let c : Criterion := ⟨.ofList [⟨[⟨"a", by decide⟩], ⟨"b", by decide⟩⟩], .sensitive, none⟩
    let v : Tree := .object [("x", .null), ("a", .array [.object [("b", .null), ("c", .null)],
      .object [("c", .object [])], .object []]), ("d", .object [])]
    let w : Tree := .object [("a", .array [.object [("y", .array []), ("b", .null)],
      .object [("d", .null)], .object []]), ("d", .null)]
    AgreeAt c [] v w ∧ v.prune c = w.prune c ∧
      v.prune c = .object [("a", .array [.object [("b", .null)], .object []])] := by
  intro c v w
  have hagree : AgreeAt c [] v w := by
    refine .object (.first (by decide) (.selected (by decide) rfl (.array ?_)
      (.first (by decide) (.second (by decide) .nil))))
    refine .cons rfl (.object ?_) (.cons rfl (.object ?_) (.cons rfl (.object .nil) .nil))
    · exact .second (by decide)
        (.selected (by decide) rfl (.scalar .null) (.first (by decide) .nil))
    · exact .first (by decide) (.second (by decide) .nil)
  exact ⟨hagree, (prune_eq_of_agree c v w hagree).1, (prune_eq_thin c v).trans rfl⟩

/-- The one way in which it matters that an unselected property is there: with it the object is
emptied, without it the object is empty to begin with. -/
example :
    let c : Criterion := ⟨.ofList [⟨[⟨"a", by decide⟩], ⟨"b", by decide⟩⟩], .sensitive, none⟩
    (object [("a", .object [("c", .null)])]).thin c.keeps [] = .object [] ∧
      (object [("a", .object [])]).thin c.keeps [] = .object [("a", .object [])] :=
  ⟨rfl, rfl⟩

end PartialResponse.Tree
