import PartialResponse.Proofs.Prune.Refinement
import PartialResponse.Proofs.Selector.Prefix

/-!
# PartialResponse.Proofs.Prune.Algebra — pruning again

Pruning by two criteria in turn is thinning by both at once, so the order of the
two does not matter, and a criterion that selects no less than another adds
nothing to it. Main statement: `prune_algebra`.
-/

namespace PartialResponse.Tree

mutual

/-- The second value is the first with items and properties left out, at any depth. -/
inductive Contains : Tree → Tree → Prop
  | scalar (s : Scalar) : Contains (.scalar s) (.scalar s)
  | array {items left : List Tree} : ContainsItems items left → Contains (.array items) (.array left)
  | object {properties left : Properties Tree} : ContainsProperties properties left →
      Contains (.object properties) (.object left)

/-- The second list has some of the items of the first, each with items and properties left out. -/
inductive ContainsItems : List Tree → List Tree → Prop
  | nil : ContainsItems [] []
  | skip {item : Tree} {rest left : List Tree} : ContainsItems rest left →
      ContainsItems (item :: rest) left
  | keep {item kept : Tree} {rest left : List Tree} : Contains item kept → ContainsItems rest left →
      ContainsItems (item :: rest) (kept :: left)

/-- The second list has some of the properties of the first, under the same names, each value with
items and properties left out. -/
inductive ContainsProperties : Properties Tree → Properties Tree → Prop
  | nil : ContainsProperties [] []
  | skip {property : String × Tree} {rest left : Properties Tree} : ContainsProperties rest left →
      ContainsProperties (property :: rest) left
  | keep {name : String} {child kept : Tree} {rest left : Properties Tree} : Contains child kept →
      ContainsProperties rest left →
      ContainsProperties ((name, child) :: rest) ((name, kept) :: left)

end

section Thinned

variable (keeps : List String → Bool)

mutual

/-- Thinning leaves out items and properties and changes nothing else. -/
theorem contains_thin (path : List String) : (t : Tree) → t.Contains (t.thin keeps path)
  | .scalar s => .scalar s
  | .array items => .array (containsItems_thin path items)
  | .object properties => .object (containsProperties_thin path properties)

/-- The same of the items of an array. -/
theorem containsItems_thin (path : List String) : (items : List Tree) →
    ContainsItems items (thinItems keeps path items)
  | [] => .nil
  | item :: rest => by
      rw [thinItems]
      split
      · exact .skip (containsItems_thin path rest)
      · exact .keep (contains_thin path item) (containsItems_thin path rest)

/-- And of the properties of an object. -/
theorem containsProperties_thin (path : List String) : (properties : Properties Tree) →
    ContainsProperties properties (thinProperties keeps path properties)
  | [] => .nil
  | (name, child) :: rest => by
      have hrest := containsProperties_thin path rest
      rw [thinProperties]
      split
      · split
        · exact .skip hrest
        · exact .keep (contains_thin (path ++ [name]) child) hrest
      · exact .skip hrest

end

end Thinned

variable {x y : Criterion}

/-- Two passes keep what both criteria keep. -/
theorem prune_prune (x y : Criterion) (t : Tree) :
    (t.prune x).prune y = t.thin (fun path => y.keeps path && x.keeps path) [] := by
  rw [prune_eq_thin, prune_eq_thin, thin_thin]

/-- The order of two passes does not matter, since both criteria have to keep a path. -/
theorem prune_comm (x y : Criterion) (t : Tree) : (t.prune x).prune y = (t.prune y).prune x := by
  have hboth : (fun path => y.keeps path && x.keeps path) =
      fun path => x.keeps path && y.keeps path := by
    funext path
    exact Bool.and_comm _ _
  rw [prune_prune, prune_prune, hboth]

/-- A second criterion that keeps whatever the first keeps finds nothing to take away. -/
theorem prune_prune_of_keeps (h : ∀ path, x.keeps path = true → y.keeps path = true) (t : Tree) :
    (t.prune x).prune y = t.prune x := by
  have hboth : (fun path => y.keeps path && x.keeps path) = x.keeps := by
    funext path
    -- only where the first keeps a path the second is asked
    cases hx : x.keeps path with
    | false => exact Bool.and_false _
    | true => rw [h path hx, Bool.and_self]
  rw [prune_prune, hboth, prune_eq_thin]

/-- Pruning leaves out items and properties. -/
theorem contains_prune (c : Criterion) (t : Tree) : t.Contains (t.prune c) := by
  rw [prune_eq_thin]
  exact contains_thin c.keeps [] t

/-- Pruning by two criteria gives the same in both orders. If the one selects every path that the
other selects, pruning by it as well, before or after, changes nothing. So pruning twice by one
criterion is pruning once; and pruning without regard to case first and with regard to case
afterwards is pruning with regard to case, whose result the other's contains. -/
theorem prune_algebra (x y : Criterion) (t : Tree) :
    (t.prune x).prune y = (t.prune y).prune x ∧
      ((∀ path, x.Selects path → y.Selects path) →
        (t.prune x).prune y = t.prune x ∧ (t.prune y).prune x = t.prune x) ∧
      (t.prune x).prune x = t.prune x ∧
      ∀ (selection : Selection) (always : Option AlwaysIncluded),
        (t.prune ⟨selection, .insensitive, always⟩).prune ⟨selection, .sensitive, always⟩ =
            t.prune ⟨selection, .sensitive, always⟩ ∧
          (t.prune ⟨selection, .insensitive, always⟩).Contains
            (t.prune ⟨selection, .sensitive, always⟩) := by
  refine ⟨prune_comm x y t, ?_, prune_prune_of_keeps (fun _ h => h) t, ?_⟩
  · intro h
    have hkeeps : ∀ path, x.keeps path = true → y.keeps path = true := by
      intro path hx
      exact Criterion.keeps_iff_selects.2 (h path (Criterion.keeps_iff_selects.1 hx))
    have hafter := prune_prune_of_keeps hkeeps t
    exact ⟨hafter, (prune_comm y x t).trans hafter⟩
  · intro selection always
    -- what is kept with regard to case is kept without
    have hturn : (t.prune ⟨selection, .insensitive, always⟩).prune ⟨selection, .sensitive, always⟩ =
        t.prune ⟨selection, .sensitive, always⟩ := by
      rw [prune_comm]
      exact prune_prune_of_keeps (fun _ h => Criterion.keeps_insensitive h) t
    refine ⟨hturn, ?_⟩
    rw [← hturn]
    exact contains_prune _ _

/-- Two criteria of which the second selects what the first does and more. -/
theorem prune_algebra_above :
    let x : Criterion := ⟨.ofList [⟨[⟨"a", by decide⟩], ⟨"b", by decide⟩⟩], .sensitive, none⟩
    let y : Criterion := ⟨.ofList [⟨[], ⟨"a", by decide⟩⟩], .sensitive, none⟩
    let t : Tree := .object [("a", .array [.object [("c", .null)], .object []]), ("d", .null)]
    (∀ path, x.Selects path → y.Selects path) ∧
      (t.prune x).prune y = t.prune x ∧ (t.prune y).prune x = t.prune x ∧
      t.prune x = .object [("a", .array [.object []])] := by
  intro x y t
  have hselects : ∀ path, x.Selects path → y.Selects path := by
    intro path h
    rw [← Criterion.keeps_iff_selects] at h ⊢
    cases path with
    | nil => rfl
    | cons name rest =>
      cases rest <;>
        simp_all [x, y, Criterion.keeps, Selection.reaches, Selection.ofList, Selection.insertAll,
          Selection.selectors_insert, Selector.names, Selector.segments, related]
  obtain ⟨hafter, hbefore⟩ := (prune_algebra x y t).2.1 hselects
  exact ⟨hselects, hafter, hbefore, (prune_eq_thin x t).trans rfl⟩

end PartialResponse.Tree
