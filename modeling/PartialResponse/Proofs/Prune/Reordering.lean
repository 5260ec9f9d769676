import PartialResponse.Proofs.Prune.Algebra
import PartialResponse.Proofs.Prune.Counts
import PartialResponse.Proofs.Tree.Reordering

/-!
# PartialResponse.Proofs.Prune.Reordering — pruning what counts as equal

The order of properties decides in which order a pass asks about paths, what it
finds in its cache and which names lie in its buffers. None of that shows: values
that are equal up to the order of properties are pruned to values that are equal in
the same way, and what is asked on the way is the same up to order, so the counts are
the same. The order of selectors decides which one answers, and not what.

* `Reordered.thin` and `Reordered.questions_perm` — one case for each constructor;
* `Criterion.Same.keeps_eq` — equal criteria keep the same paths;
* `prune_same` — the main statement, about the equalities that programs can test.
-/

namespace PartialResponse

/-! ## Equal criteria -/

/-- Two selections with the same selectors, in any order, reach the same paths. -/
theorem Selection.reaches_of_same {s t : Selection} (h : s.same t = true) (mode : CaseMode)
    (path : List String) : s.reaches mode path = t.reaches mode path := by
  rw [same, Bool.and_eq_true, beq_iff_eq, List.all_eq_true] at h
  have hsubset : s.selectors ⊆ t.selectors := by
    intro x hx
    simpa [contains] using h.2 x hx
  -- no selector is there twice, so with as many selectors there is no room for another one
  have hperm : s.selectors.Perm t.selectors :=
    (s.nodup.subperm hsubset).perm_of_length_le h.1.ge
  rw [reaches, reaches, hperm.any_eq]

namespace AlwaysIncluded

/-- Whether two sets of what is always included count as equal. -/
def same (a b : AlwaysIncluded) : Bool :=
  a.selection.same b.selection && a.mode == b.mode

/-- Equal sets retain the same paths, and so do two that are missing. -/
theorem any_reaches_of_same {a b : Option AlwaysIncluded}
    (h : Option.Rel (fun a b => a.same b = true) a b) (path : List String) :
    a.any (·.reaches path) = b.any (·.reaches path) := by
  cases h with
  | none => rfl
  | some hsame =>
    rw [same, Bool.and_eq_true, beq_iff_eq] at hsame
    rw [Option.any_some, Option.any_some, reaches, reaches, ← hsame.2]
    exact Selection.reaches_of_same hsame.1 _ path

end AlwaysIncluded

namespace Criterion

variable {c d : Criterion}

/-- Two criteria count as equal: their selections have the same selectors in any order, they compare
names alike, and what they always include is equal, if there is anything. -/
structure Same (c d : Criterion) : Prop where
  selection_same : c.selection.same d.selection = true
  mode_eq : c.mode = d.mode
  always_same : Option.Rel (fun a b => a.same b = true) c.always d.always

/-- Equal criteria keep the same paths. -/
theorem Same.keeps_eq (h : c.Same d) : c.keeps = d.keeps := by
  funext path
  rw [keeps, keeps, Selection.reaches_of_same h.selection_same, h.mode_eq,
    AlwaysIncluded.any_reaches_of_same h.always_same]

end Criterion

namespace Tree

open Properties (names)

variable {keeps : List String → Bool}

/-! ## What is left of well-formed values -/

/-- The names that are left stand in the order they had. -/
theorem ContainsProperties.names_sublist {properties left : Properties Tree} :
    ContainsProperties properties left → (names left).Sublist (names properties)
  | .nil => .slnil
  | .skip hrest => hrest.names_sublist.cons _
  | .keep _ hrest => hrest.names_sublist.cons_cons _

mutual

/-- A value with items and properties left out is well formed if the whole value is. -/
theorem Contains.wellFormed {t left : Tree} (h : t.Contains left) (hwell : t.WellFormed) :
    left.WellFormed :=
  match h with
  | .scalar _ => trivial
  | .array hitems => hitems.wellFormed hwell
  | .object hproperties =>
    ⟨hproperties.names_sublist.nodup hwell.1, hproperties.wellFormed hwell.2⟩

theorem ContainsItems.wellFormed {items left : List Tree} (h : ContainsItems items left)
    (hwell : WellFormedItems items) : WellFormedItems left :=
  match h with
  | .nil => trivial
  | .skip hrest => hrest.wellFormed hwell.2
  | .keep hitem hrest => ⟨hitem.wellFormed hwell.1, hrest.wellFormed hwell.2⟩

theorem ContainsProperties.wellFormed {properties left : Properties Tree}
    (h : ContainsProperties properties left) (hwell : WellFormedProperties properties) :
    WellFormedProperties left :=
  match h with
  | .nil => trivial
  | .skip hrest => hrest.wellFormed hwell.2
  | .keep hchild hrest => ⟨hchild.wellFormed hwell.1, hrest.wellFormed hwell.2⟩

end

mutual

/-- What is left is no deeper. -/
theorem Contains.depth_le {t left : Tree} (h : t.Contains left) : left.depth ≤ t.depth :=
  match h with
  | .scalar _ => Nat.le_refl _
  | .array hitems => Nat.succ_le_succ hitems.depth_le
  | .object hproperties => Nat.succ_le_succ hproperties.depth_le

theorem ContainsItems.depth_le {items left : List Tree} (h : ContainsItems items left) :
    depthItems left ≤ depthItems items :=
  match h with
  | .nil => Nat.le_refl _
  | .skip hrest => Nat.le_trans hrest.depth_le (Nat.le_max_right _ _)
  | .keep hitem hrest => max_le_max hitem.depth_le hrest.depth_le

theorem ContainsProperties.depth_le {properties left : Properties Tree}
    (h : ContainsProperties properties left) : depthProperties left ≤ depthProperties properties :=
  match h with
  | .nil => Nat.le_refl _
  | .skip hrest => Nat.le_trans hrest.depth_le (Nat.le_max_right _ _)
  | .keep hchild hrest => max_le_max hchild.depth_le hrest.depth_le

end

/-- What is left of a well-formed value is well formed. -/
theorem wellFormed_prune {t : Tree} (h : t.WellFormed) (c : Criterion) :
    (t.prune c).WellFormed :=
  (contains_prune c t).wellFormed h

/-- Pruning makes no value deeper. -/
theorem depth_prune_le (t : Tree) (c : Criterion) : (t.prune c).depth ≤ t.depth :=
  (contains_prune c t).depth_le

/-! ## Thinning reordered values -/

/-- Properties are thinned one by one. -/
theorem thinProperties_append (path : List String) (front back : Properties Tree) :
    thinProperties keeps path (front ++ back) =
      thinProperties keeps path front ++ thinProperties keeps path back := by
  induction front with
  | nil => rfl
  | cons property rest ih =>
    rcases property with ⟨name, child⟩
    rw [List.cons_append, thinProperties, thinProperties, ih]
    split
    · split
      · rfl
      · rfl
    · rfl

/-- Of two values that are reordered and left reordered, both collapse or none does. -/
theorem Reordered.collapses_eq {t u left other : Tree} (h : t.Reordered u)
    (hleft : left.Reordered other) : t.collapses left = u.collapses other := by
  rw [collapses, collapses, h.isEmpty_eq, hleft.isEmpty_eq]

mutual

/-- Thinning keeps values equal up to order: a property is kept by its path and not by its place. -/
theorem Reordered.thin {t u : Tree} (h : t.Reordered u) (path : List String) :
    (t.thin keeps path).Reordered (u.thin keeps path) :=
  match h with
  | .scalar hsame => .scalar hsame
  | .array hitems => .array (hitems.thin path)
  | .object hproperties => .object (hproperties.thin path)

theorem ReorderedItems.thin {items others : List Tree} (h : ReorderedItems items others)
    (path : List String) :
    ReorderedItems (thinItems keeps path items) (thinItems keeps path others) :=
  match h with
  | .nil => .nil
  | .cons hitem hrest => by
      rw [thinItems, thinItems, hitem.collapses_eq (hitem.thin path)]
      split
      · exact hrest.thin path
      · exact .cons (hitem.thin path) (hrest.thin path)

theorem ReorderedProperties.thin {properties others : Properties Tree}
    (h : ReorderedProperties properties others) (path : List String) :
    ReorderedProperties (thinProperties keeps path properties)
      (thinProperties keeps path others) :=
  match h with
  | .nil => .nil
  | .cons name hchild hrest => by
      have hleft := hrest.thin path
      -- the property stands first in one object and anywhere in the other
      rw [thinProperties_append] at hleft ⊢
      rw [thinProperties, thinProperties, hchild.collapses_eq (hchild.thin (path ++ [name]))]
      split
      · split
        · exact hleft
        · exact .cons name (hchild.thin (path ++ [name])) hleft
      · exact hleft

end

/-! ## What is asked on the way through reordered values -/

/-- Properties are asked about one after the other. -/
theorem propertyQuestions_append (path : List String) (front back : Properties Tree) :
    propertyQuestions keeps path (front ++ back) =
      propertyQuestions keeps path front ++ propertyQuestions keeps path back := by
  induction front with
  | nil => rfl
  | cons property rest ih =>
    rcases property with ⟨name, child⟩
    rw [List.cons_append, propertyQuestions, propertyQuestions, ih, List.cons_append,
      List.append_assoc]

mutual

/-- Reordered values lead to the same questions, in another order. -/
theorem Reordered.questions_perm {t u : Tree} (h : t.Reordered u) (path : List String) :
    (t.questions keeps path).Perm (u.questions keeps path) :=
  match h with
  | .scalar _ => .refl _
  | .array hitems => hitems.questions_perm path
  | .object hproperties => hproperties.questions_perm path

theorem ReorderedItems.questions_perm {items others : List Tree} (h : ReorderedItems items others)
    (path : List String) :
    (itemQuestions keeps path items).Perm (itemQuestions keeps path others) :=
  match h with
  | .nil => .refl _
  | .cons hitem hrest => (hitem.questions_perm path).append (hrest.questions_perm path)

theorem ReorderedProperties.questions_perm {properties others : Properties Tree}
    (h : ReorderedProperties properties others) (path : List String) :
    (propertyQuestions keeps path properties).Perm (propertyQuestions keeps path others) :=
  match h with
  | .nil => .refl _
  | .cons name hchild hrest => by
      have hasked := hrest.questions_perm path
      rw [propertyQuestions_append] at hasked ⊢
      rw [propertyQuestions, propertyQuestions]
      -- the property's own question, and after it those inside or none
      refine (List.Perm.cons _ ?_).trans List.perm_middle.symm
      refine List.Perm.trans ?_ (List.perm_append_comm_assoc _ _ _)
      refine List.Perm.append ?_ hasked
      split
      · exact hchild.questions_perm (path ++ [name])
      · exact .refl _

end

variable {c d : Criterion} {v w : Tree}

/-- Passes over reordered values come to the same properties, up to order. -/
theorem Reordered.visits_perm (h : v.Reordered w) (hkeeps : c.keeps = d.keeps) :
    (v.visits c).Perm (w.visits d) := by
  have hasked : (v.questions c.keeps []).Perm (w.questions d.keeps []) := by
    rw [hkeeps]
    exact h.questions_perm []
  exact (questions_perm_visits c v).symm.trans (hasked.trans (questions_perm_visits d w))

/-- The counts are those of the visits, in whatever order these are made. -/
theorem Reordered.log_eq (h : v.Reordered w) (hkeeps : c.keeps = d.keeps) :
    (v.pruneLogged c).2 = (w.pruneLogged d).2 := by
  have hperm := h.visits_perm hkeeps
  rw [log_pruneLogged, log_pruneLogged, List.toFinset_eq_of_perm _ _ hperm, hperm.length_eq]

/-- **Pruning respects equality up to order.** Values that are equal but for the order of
properties, pruned by criteria that are equal but for the order of selectors, are left equal but for
the order of properties. Each keeps its own order: it is what it was with items and properties left
out. Both passes report as many distinct paths and as many answers from the cache. No object may
have two properties of one name, and none has that is read. -/
theorem prune_same (hv : v.WellFormed) (hw : w.WellFormed) (hvw : v.same w = true)
    (hcd : c.Same d) :
    (v.prune c).same (w.prune d) = true ∧
      v.Contains (v.prune c) ∧ w.Contains (w.prune d) ∧
      ∃ distinctPaths cacheHits, (v.pruneLogged c).2 = .pruned distinctPaths cacheHits ∧
        (w.pruneLogged d).2 = .pruned distinctPaths cacheHits := by
  have hreordered : v.Reordered w := (same_iff_reordered hv hw).1 hvw
  have hkeeps : c.keeps = d.keeps := hcd.keeps_eq
  constructor
  · have hleft : (v.prune c).Reordered (w.prune d) := by
      rw [prune_eq_thin, prune_eq_thin, hkeeps]
      exact hreordered.thin []
    exact hleft.same (wellFormed_prune hw d)
  · refine ⟨contains_prune c v, contains_prune d w, _, _, rfl, ?_⟩
    exact (hreordered.log_eq hkeeps).symm

/-- Two values with their properties in opposite orders and zeros of opposite signs, and two
criteria with their selectors in opposite orders. What is left differs as a list of properties. -/
theorem prune_same_opposite :
    let a : Segment := ⟨"a", by decide⟩
    let b : Segment := ⟨"b", by decide⟩
    let id : Segment := ⟨"id", by decide⟩
    let total : Segment := ⟨"total", by decide⟩
    let x : Segment := ⟨"x", by decide⟩
    let c : Criterion := ⟨.ofList [⟨[a], b⟩, ⟨[], id⟩], .sensitive,
      some ⟨.ofList [⟨[], total⟩, ⟨[], x⟩], .sensitive⟩⟩
    let d : Criterion := ⟨.ofList [⟨[], id⟩, ⟨[a], b⟩], .sensitive,
      some ⟨.ofList [⟨[], x⟩, ⟨[], total⟩], .sensitive⟩⟩
    let zero (negative : Bool) : Tree := .scalar (.number (.float ⟨negative, 0, by decide⟩))
    let item : Tree := .object [("c", .null), ("b", .null)]
    let other : Tree := .object [("b", .null), ("c", .null)]
    let v : Tree := .object [("id", zero false), ("a", .array [item, item]),
      ("total", .object []), ("y", .null)]
    let w : Tree := .object [("y", .null), ("total", .object []),
      ("a", .array [other, other]), ("id", zero true)]
    (v.WellFormed ∧ w.WellFormed ∧ v.same w = true ∧ c.Same d) ∧
      (v.prune c).same (w.prune d) = true ∧
      v.prune c = .object [("id", zero false),
        ("a", .array [.object [("b", .null)], .object [("b", .null)]]), ("total", .object [])] ∧
      w.prune d = .object [("total", .object []),
        ("a", .array [.object [("b", .null)], .object [("b", .null)]]), ("id", zero true)] := by
  intro a b id total x c d zero item other v w
  have hv : v.WellFormed := by
    simp [v, item, zero, null, WellFormed, WellFormedProperties, WellFormedItems, names]
  have hw : w.WellFormed := by
    simp [w, other, zero, null, WellFormed, WellFormedProperties, WellFormedItems, names]
  have hvw : v.same w = true := by decide +kernel
  have hcd : c.Same d := ⟨by decide +kernel, rfl, .some (by decide +kernel)⟩
  have hprune := prune_same hv hw hvw hcd
  refine ⟨⟨hv, hw, hvw, hcd⟩, hprune.1, ?_, ?_⟩
  · rw [prune_eq_thin]
    rfl
  · rw [prune_eq_thin]
    rfl

end Tree

end PartialResponse
