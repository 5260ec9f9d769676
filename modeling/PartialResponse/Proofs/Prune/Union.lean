import PartialResponse.Proofs.Prune.Leaves
import PartialResponse.Proofs.Selector.Editing
import PartialResponse.Proofs.Tree.Places
import Mathlib.Data.Set.Finite.Basic

/-!
# PartialResponse.Proofs.Prune.Union — what is always included adds to the selection

The two sets of a criterion are combined at every path on the way down, each under
its own case mode. For the leaves it comes to the same as pruning twice: a leaf is
kept if the caller's selection alone keeps it or what is always included alone
does. With one case mode the two sets are as good as one.

Pruning does not look at leaves, so a leaf is known by its place: it is kept if
whatever stands there is found in what is left (`KeepsLeafAt`). Main statement:
`keepsLeafAt_always`.
-/

namespace PartialResponse

/-! ## Leaves that are kept -/

/-- Whether pruning keeps the leaf at a place: any scalar that stands there is found in what is
left. -/
def Tree.KeepsLeafAt (c : Criterion) (t : Tree) (place : List Nat) : Prop :=
  ∀ s : Scalar, ∃ leaf ∈ ((Tree.replaceAt (.scalar s) place t).prune c).leaves,
    leaf.value = .scalar s

/-- There is a scalar that is not among the given values. -/
theorem Scalar.exists_fresh (values : List Tree) : ∃ s : Scalar, Tree.scalar s ∉ values := by
  have hinjective : Function.Injective fun text => Tree.scalar (.string text) := by
    intro a b h
    injection h with h
    injection h
  obtain ⟨_, ⟨text, rfl⟩, hfresh⟩ :=
    (Set.infinite_range_of_injective hinjective).exists_notMem_finite values.finite_toSet
  exact ⟨.string text, hfresh⟩

namespace Tree

variable {c : Criterion} {t : Tree} {place : List Nat} {leaf : Part}

/-- The leaves of a pruned value, if one of those it had is left. -/
theorem leaves_prune (h : (⟨0, [], t⟩ : Part).holdsShown c.keeps = true) :
    (t.prune c).leaves = t.leaves.filter fun leaf => shown c.keeps leaf.path := by
  rw [prune_eq_thin]
  exact Part.leaves_thin (fun _ _ => Criterion.keeps_of_append) h

/-- If none of them is left, the root is left and holds nothing. -/
theorem leaves_prune_of_none (h : (⟨0, [], t⟩ : Part).holdsShown c.keeps = false) :
    (t.prune c).leaves = [⟨0, [], t.shell⟩] := by
  have hempty : t.shell.isEmpty = true := by cases t <;> rfl
  rw [prune_eq_thin, thin_eq_shell (fun _ _ => Criterion.keeps_of_append) h]
  exact Part.leaves_of_isEmpty (p := ⟨0, [], t.shell⟩) hempty

open scoped Classical in
/-- Of the leaves that were there, those are left whose paths show. -/
theorem filter_leaves_prune (c : Criterion) (t : Tree) :
    (t.prune c).leaves.filter (· ∈ t.leaves) =
      t.leaves.filter fun leaf => shown c.keeps leaf.path := by
  cases hholds : (⟨0, [], t⟩ : Part).holdsShown c.keeps with
  | true =>
    rw [leaves_prune hholds, List.filter_eq_self]
    intro leaf hleaf
    exact decide_eq_true (List.mem_of_mem_filter hleaf)
  | false =>
    have hnone : ∀ leaf ∈ t.leaves, ¬ shown c.keeps leaf.path = true := by
      intro leaf hleaf hshown
      exact absurd hholds (by simpa [Part.holdsShown] using ⟨leaf, hleaf, hshown⟩)
    -- the emptied root was no leaf, since the path of the root shows
    have hroot : (⟨0, [], t.shell⟩ : Part) ∉ t.leaves := fun hmem => hnone _ hmem rfl
    rw [leaves_prune_of_none hholds, List.filter_eq_nil_iff.2 hnone, List.filter_eq_nil_iff]
    intro leaf hleaf
    rw [List.mem_singleton.1 hleaf, decide_eq_true_iff]
    exact hroot

/-- A leaf that was there is left exactly if its path shows. -/
theorem mem_leaves_prune_iff (h : leaf ∈ t.leaves) :
    leaf ∈ (t.prune c).leaves ↔ shown c.keeps leaf.path = true := by
  classical
  have hfilter : leaf ∈ (t.prune c).leaves.filter (· ∈ t.leaves) ↔
      leaf ∈ t.leaves.filter fun leaf => shown c.keeps leaf.path := by
    rw [filter_leaves_prune]
  simpa [h] using hfilter

/-- A scalar that is left was there before. -/
theorem mem_leaves_of_mem_leaves_prune {s : Scalar} (h : leaf ∈ (t.prune c).leaves)
    (hvalue : leaf.value = .scalar s) : leaf ∈ t.leaves := by
  cases hholds : (⟨0, [], t⟩ : Part).holdsShown c.keeps with
  | true =>
    rw [leaves_prune hholds] at h
    exact List.mem_of_mem_filter h
  | false =>
    rw [leaves_prune_of_none hholds, List.mem_singleton] at h
    subst h
    -- a scalar at the root would be left
    cases t with
    | scalar _ => cases hholds
    | array _ => cases hvalue
    | object _ => cases hvalue

/-- A leaf is kept exactly if its path shows. -/
theorem keepsLeafAt_iff_shown (hat : Part.at? place ⟨0, [], t⟩ = some leaf) :
    t.KeepsLeafAt c place ↔ shown c.keeps leaf.path = true := by
  constructor
  · intro hkeeps
    obtain ⟨s, hfresh⟩ := Scalar.exists_fresh (t.leaves.map (·.value))
    obtain ⟨found, hfound, hvalue⟩ := hkeeps s
    have hmem := mem_leaves_of_mem_leaves_prune hfound hvalue
    have hscalar : (scalar s).isEmpty = true := rfl
    -- no leaf of the value holds the scalar, so it is found where it has been put
    rcases Part.mem_leaves_replaceAt hscalar hat hmem with rfl | hold
    · exact (mem_leaves_prune_iff hmem).1 hfound
    · exact absurd (List.mem_map.2 ⟨found, hold, hvalue⟩) hfresh
  · intro hshown s
    have hscalar : (scalar s).isEmpty = true := rfl
    have hmem := Part.replaced_mem_leaves hscalar hat
    exact ⟨{ leaf with value := .scalar s }, (mem_leaves_prune_iff hmem).2 hshown, rfl⟩

end Tree

/-! ## The two sets of a criterion -/

namespace Selection

/-- A union reaches what one of the two reaches. -/
@[simp]
theorem reaches_union (s t : Selection) (mode : CaseMode) (path : List String) :
    (s.union t).reaches mode path = (s.reaches mode path || t.reaches mode path) := by
  rw [Bool.eq_iff_iff, Bool.or_eq_true]
  simp only [reaches, List.any_eq_true, mem_union, or_and_right, exists_or]

theorem union_assoc (s t u : Selection) : s.union (t.union u) = (s.union t).union u :=
  s.union_insertAll t u.selectors

/-- Adding a union of selections is adding them one after the other. -/
theorem union_foldl (s t : Selection) (others : List Selection) :
    s.union (others.foldl union t) = others.foldl union (s.union t) := by
  induction others generalizing t with
  | nil => rfl
  | cons other others ih => rw [List.foldl_cons, List.foldl_cons, ih, union_assoc]

end Selection

/-- Texts that can be read one by one are read into the union of their selections. -/
theorem AlwaysIncluded.parse_of_accepted {texts : List String} {selections : List Selection}
    (h : texts.map Selection.parse = selections.map .ok) (mode : CaseMode) :
    AlwaysIncluded.parse texts mode = .ok ⟨selections.foldl Selection.union .empty, mode⟩ := by
  have hread : texts.mapM Selection.parse = .ok selections := by
    induction texts generalizing selections with
    | nil =>
      obtain rfl : selections = [] := by simpa [eq_comm] using h
      rfl
    | cons text texts ih =>
      cases selections with
      | nil => simp at h
      | cons s selections =>
        rw [List.map_cons, List.map_cons, List.cons.injEq] at h
        rw [List.mapM_cons, h.1, ih h.2]
        rfl
  rw [AlwaysIncluded.parse, hread]
  rfl

/-- Under one case mode, what is always included is a part of the selection. -/
theorem Tree.prune_always_eq_union (s a : Selection) (mode : CaseMode) (v : Tree) :
    v.prune ⟨s, mode, some ⟨a, mode⟩⟩ = v.prune ⟨s.union a, mode, none⟩ := by
  apply prune_eq_of_keeps_eq
  intro path
  simp only [Criterion.keeps, Option.any_some, Option.any_none, AlwaysIncluded.reaches,
    Selection.reaches_union, Bool.or_false]

theorem shown_always (s a : Selection) (mode ownMode : CaseMode) (path : List String) :
    shown (Criterion.keeps ⟨s, mode, some ⟨a, ownMode⟩⟩) path = true ↔
      shown (Criterion.keeps ⟨s, mode, none⟩) path = true ∨
        shown (Criterion.keeps ⟨a, ownMode, none⟩) path = true := by
  simp only [shown, Criterion.keeps, Option.any_some, Option.any_none, AlwaysIncluded.reaches,
    Bool.or_eq_true, Bool.or_false]
  tauto

open scoped Classical in
/-- What is always included adds to what is left and to nothing else. A leaf is kept exactly if the
selection alone keeps it or what is always included would alone. The leaves of the value that come
out are, in their order and each as often as it is there, those that come out of one of these two
passes. Under one case mode the result is that of the union of the two. Of accepted texts, what is
always included is read, and the result is that of the selection to which the texts' selections
are added in turn. -/
theorem Tree.keepsLeafAt_always (s a : Selection) (mode ownMode : CaseMode) (v : Tree) :
    (∀ place leaf, Part.at? place ⟨0, [], v⟩ = some leaf → leaf.value.isEmpty = true →
      (v.KeepsLeafAt ⟨s, mode, some ⟨a, ownMode⟩⟩ place ↔
        v.KeepsLeafAt ⟨s, mode, none⟩ place ∨ v.KeepsLeafAt ⟨a, ownMode, none⟩ place)) ∧
    (v.prune ⟨s, mode, some ⟨a, ownMode⟩⟩).leaves.filter (· ∈ v.leaves) =
      v.leaves.filter (fun leaf => leaf ∈ (v.prune ⟨s, mode, none⟩).leaves ∨
        leaf ∈ (v.prune ⟨a, ownMode, none⟩).leaves) ∧
    v.prune ⟨s, mode, some ⟨a, mode⟩⟩ = v.prune ⟨s.union a, mode, none⟩ ∧
    ∀ (texts : List String) (selections : List Selection),
      texts.map Selection.parse = selections.map .ok →
      ∃ always, AlwaysIncluded.parse texts mode = .ok always ∧
        s.union always.selection = selections.foldl .union s ∧
        v.prune ⟨s, mode, some always⟩ = v.prune ⟨selections.foldl .union s, mode, none⟩ := by
  refine ⟨?_, ?_, prune_always_eq_union s a mode v, ?_⟩
  · intro place leaf hat _
    rw [keepsLeafAt_iff_shown hat, keepsLeafAt_iff_shown hat, keepsLeafAt_iff_shown hat,
      shown_always]
  · rw [filter_leaves_prune]
    apply List.filter_congr
    intro leaf hleaf
    rw [Bool.eq_iff_iff, shown_always, decide_eq_true_iff, mem_leaves_prune_iff hleaf,
      mem_leaves_prune_iff hleaf]
  · intro texts selections haccepted
    -- adding the selections in turn is adding their union
    have hunion : s.union (selections.foldl .union .empty) = selections.foldl .union s :=
      s.union_foldl .empty selections
    refine ⟨_, AlwaysIncluded.parse_of_accepted haccepted mode, hunion, ?_⟩
    rw [prune_always_eq_union, hunion]

/-- A leaf that only the always-included `total` keeps, without regard to case, and texts of which
one has a group. -/
theorem Tree.keepsLeafAt_always_total :
    let a : Segment := ⟨"a", by decide⟩
    let b : Segment := ⟨"b", by decide⟩
    let total : Segment := ⟨"total", by decide⟩
    let s : Selection := .ofList [⟨[a], b⟩]
    let v : Tree := .object [("a", .array [.object [("b", .null)], .object [("c", .null)]]),
      ("Total", .object [])]
    Part.at? [1] ⟨0, [], v⟩ = some ⟨1, ["Total"], .object []⟩ ∧
      v.KeepsLeafAt ⟨s, .sensitive, some ⟨.ofList [⟨[], total⟩], .insensitive⟩⟩ [1] ∧
      ["a(b,c)", "b"].map Selection.parse =
        [Selection.ofList [⟨[a], b⟩, ⟨[a], ⟨"c", by decide⟩⟩], .ofList [⟨[], b⟩]].map .ok ∧
      ∃ always, AlwaysIncluded.parse ["a(b,c)", "b"] .sensitive = .ok always ∧
        v.prune ⟨s, .sensitive, some always⟩ =
          v.prune ⟨.ofList [⟨[a], b⟩, ⟨[a], ⟨"c", by decide⟩⟩, ⟨[], b⟩], .sensitive, none⟩ := by
  intro a b total s v
  have hat : Part.at? [1] ⟨0, [], v⟩ = some ⟨1, ["Total"], .object []⟩ := rfl
  have hown : v.KeepsLeafAt ⟨.ofList [⟨[], total⟩], .insensitive, none⟩ [1] :=
    (keepsLeafAt_iff_shown hat).2 (by decide +kernel)
  have hread : ["a(b,c)", "b"].map Selection.parse =
      [Selection.ofList [⟨[a], b⟩, ⟨[a], ⟨"c", by decide⟩⟩], .ofList [⟨[], b⟩]].map .ok := by
    let group : Grammar.Terms :=
      .one (.group a [] (.more (.path b []) (.one (.path ⟨"c", by decide⟩ []))))
    let path : Grammar.Terms := .one (.path b [])
    have hgroup : group.text = "a(b,c)".toList := by decide
    have hpath : path.text = "b".toList := by decide
    rw [List.map_cons, List.map_cons, List.map_nil, Selection.parse_terms hgroup,
      Selection.parse_terms hpath]
    rfl
  have hkeeps :=
    ((keepsLeafAt_always s _ .sensitive .insensitive v).1 [1] _ hat rfl).2 (Or.inr hown)
  obtain ⟨always, hparse, -, hprune⟩ :=
    (keepsLeafAt_always s s .sensitive .sensitive v).2.2.2 _ _ hread
  exact ⟨hat, hkeeps, hread, always, hparse, hprune⟩

end PartialResponse
