import PartialResponse.Proofs.Prune.Cache
import PartialResponse.Proofs.Prune.Leaves
import PartialResponse.Proofs.Selector.Forms

/-!
# PartialResponse.Proofs.Prune.Unspelled — names that selector text cannot spell

A document may have properties with names that no selector has: the empty name,
and names with a slash, a comma or a parenthesis. Such a property is selected
only from above, by a selector that ends at a property around it
(`keeps_unspelled`), and then it is kept with all it holds (`prune_unspelled`). A
selector is written with slashes, but a property whose name looks like that is
another one, for the selector as well as for the cache.
-/

namespace PartialResponse

/-- A name that selector text cannot spell. -/
def Unspelled (name : String) : Prop :=
  name = "" ∨ ∃ c ∈ name.toList, c = '/' ∨ c = ',' ∨ c = '(' ∨ c = ')'

variable {name : String} {mode : CaseMode} {above below : List String}

/-- These are the names that are no segments. -/
theorem unspelled_iff : Unspelled name ↔ isSegment name = false := by
  rw [isSegment, ← List.not_any_eq_all_not, ← Bool.not_or, Bool.not_eq_false', Bool.or_eq_true,
    List.isEmpty_iff, String.toList_eq_nil_iff, List.any_eq_true]
  simp only [Unspelled, isReserved, Bool.or_eq_true, beq_iff_eq, or_assoc]

/-- A selector of several segments is written with a slash, so no segment has the name that looks
like it. -/
theorem Selector.unspelled_text {x : Selector} (h : 2 ≤ x.size) : Unspelled x.text := by
  have hlength : x.names.length = x.size := by rw [names, List.length_map, size]
  obtain ⟨first, next, rest, hnames⟩ : ∃ first next rest, x.names = first :: next :: rest := by
    rcases hx : x.names with - | ⟨first, - | ⟨next, rest⟩⟩
    · rw [hx, List.length_nil] at hlength
      omega
    · rw [hx, List.length_singleton] at hlength
      omega
    · exact ⟨first, next, rest, rfl⟩
  refine Or.inr ⟨'/', ?_, Or.inl rfl⟩
  rw [text, hnames, joinNames]
  · simp
  · simp

/-! ## What reaches such a name -/

/-- No selector has a name that counts as the same as one that cannot be spelled. -/
theorem form_not_mem_forms (mode : CaseMode) (h : Unspelled name) (x : Selector) :
    mode.form name ∉ mode.forms x.names := by
  intro hmem
  obtain ⟨other, hother, hsame⟩ := List.mem_map.1 hmem
  have hspelled := Selector.isSegment_of_mem_names hother
  rw [CaseMode.isSegment_eq_of_sameName (CaseMode.sameName_iff.2 hsame), unspelled_iff.1 h]
    at hspelled
  contradiction

/-- A list that begins another one and misses one of its entries ends in front of the entry. -/
theorem prefix_of_not_mem {α : Type} {xs above below : List α} {a : α}
    (h : xs <+: above ++ a :: below) (hmissing : a ∉ xs) : xs <+: above := by
  -- two beginnings of one list: one of them begins the other
  rcases List.prefix_or_prefix_of_prefix h (List.prefix_append above _) with hshort | ⟨rest, rfl⟩
  · exact hshort
  · -- what is longer has the entry
    rw [List.prefix_append_right_inj] at h
    cases rest with
    | nil => simp
    | cons b rest =>
      obtain ⟨rfl, -⟩ := List.cons_prefix_cons.1 h
      simp at hmissing

/-- A selector that leads to what lies at or under such a name leads to what is above. -/
theorem leads_unspelled_iff (h : Unspelled name) (x : Selector) :
    mode.Leads x.names (above ++ name :: below) ↔ mode.Leads x.names above := by
  have hforms : mode.forms (above ++ name :: below) =
      mode.forms above ++ mode.form name :: mode.forms below := by
    simp [CaseMode.forms]
  rw [CaseMode.leads_iff_prefix, CaseMode.leads_iff_prefix, hforms]
  constructor
  · intro hleads
    exact prefix_of_not_mem hleads (form_not_mem_forms mode h x)
  · intro hleads
    exact hleads.trans (List.prefix_append _ _)

/-- A path through such a name leads to no selector. -/
theorem not_leads_unspelled (h : Unspelled name) (x : Selector) :
    ¬ mode.Leads (above ++ name :: below) x.names := by
  rw [CaseMode.leads_iff_prefix]
  intro hleads
  apply form_not_mem_forms mode h x
  apply hleads.subset
  simp [CaseMode.forms]

/-- So a selector reaches what lies there only from above. -/
theorem related_unspelled_iff (h : Unspelled name) (x : Selector) :
    related mode (above ++ name :: below) x.names = true ↔ mode.Leads x.names above := by
  rw [related_iff_leads, leads_unspelled_iff h, or_iff_right (not_leads_unspelled h x)]

/-- A selector that leads to a path has no more segments than the path has names. -/
theorem size_le_of_leads {x : Selector} (h : mode.Leads x.names above) :
    x.size ≤ above.length := by
  have hlength := (CaseMode.leads_iff_prefix.1 h).length_le
  simpa [CaseMode.forms, Selector.names, Selector.size] using hlength

/-- The same of the selectors of a selection. -/
theorem Selection.reaches_unspelled_iff (h : Unspelled name) (s : Selection) :
    s.reaches mode (above ++ name :: below) = true ↔
      ∃ x ∈ s.selectors, mode.Leads x.names above := by
  simp only [reaches, List.any_eq_true, related_unspelled_iff h]

namespace Criterion

/-- Whether a selector of the caller's ends at the path or above it, or one that is always included
does. -/
def Covers (c : Criterion) (path : List String) : Prop :=
  (∃ x ∈ c.selection.selectors, c.mode.Leads x.names path) ∨
    ∃ a ∈ c.always, ∃ x ∈ a.selection.selectors, a.mode.Leads x.names path

/-- And of those that are always included. -/
theorem keeps_unspelled {c : Criterion} (h : Unspelled name) (below : List String) :
    c.keeps (above ++ name :: below) = true ↔ c.Covers above := by
  simp only [keeps, Covers, Bool.or_eq_true, Option.any_eq_true, AlwaysIncluded.reaches,
    Selection.reaches_unspelled_iff h]
  rfl

instance (c : Criterion) (path : List String) : Decidable (c.Covers path) :=
  decidable_of_iff (c.keeps (path ++ [""]) = true) (keeps_unspelled (Or.inl rfl) [])

end Criterion

/-! ## What is left under such a name -/

/-- A value is left as it is if all paths at and under its own pass the test. -/
theorem Tree.thin_of_keeps {keeps : List String → Bool} {path : List String} {t : Tree}
    (h : ∀ below, keeps (path ++ below) = true) : t.thin keeps path = t := by
  induction t using Tree.induct generalizing path with
  | scalar s => rfl
  | array items ih =>
    have hitems : ∀ item ∈ items, item.remnant keeps path = some item := by
      intro item hitem
      simp [remnant, ih item hitem h, collapses]
    rw [thin_array, List.filterMap_congr hitems, List.filterMap_some]
  | object properties ih =>
    have hproperties : ∀ property ∈ properties,
        propertyRemnant keeps path property = some property := by
      intro property hproperty
      have hbelow : ∀ below, keeps ((path ++ [property.1]) ++ below) = true := by
        intro below
        rw [List.append_assoc]
        exact h _
      simp [propertyRemnant, remnant, h, ih property hproperty hbelow, collapses]
    rw [thin_object, List.filterMap_congr hproperties, List.filterMap_some]

namespace Part

/-- Every part holds a leaf, be it the part itself. -/
theorem exists_leaf (p : Part) : ∃ leaf, leaf ∈ p.leaves := by
  induction p using induct with
  | step p ih =>
    cases hempty : p.value.isEmpty with
    | true => exact ⟨p, by simp [leaves_of_isEmpty hempty]⟩
    | false =>
      have hchildren : p.children ≠ [] := by
        rw [Ne, children_eq_nil, hempty]
        exact Bool.false_ne_true
      obtain ⟨child, hchild⟩ := List.exists_mem_of_ne_nil _ hchildren
      obtain ⟨leaf, hleaf⟩ := ih child hchild
      rw [leaves_of_not_isEmpty hempty]
      exact ⟨leaf, List.mem_flatMap.2 ⟨child, hchild, hleaf⟩⟩

/-- The part lies at such a name or under it. -/
def Under (path : List String) (p : Part) : Prop :=
  path <+: p.path

instance (path : List String) : DecidablePred (Under path) :=
  fun p => inferInstanceAs (Decidable (path <+: p.path))

variable {c : Criterion} {p : Part}

/-- At or under such a name a part holds a leaf that is left exactly if what is above is covered. -/
theorem holdsShown_iff_covers (h : Unspelled name) (hunder : p.Under (above ++ [name])) :
    p.holdsShown c.keeps = true ↔ c.Covers above := by
  -- all parts in it lie under the name, so all are kept or none
  have hpath : ∀ q ∈ p.parts, shown c.keeps q.path = true ↔ c.Covers above := by
    intro q hq
    obtain ⟨below, hbelow⟩ := hunder.trans (path_prefix_of_mem_parts hq)
    rw [List.append_assoc, List.singleton_append] at hbelow
    rw [← hbelow, shown, ← Criterion.keeps_unspelled h below]
    simp
  rw [holdsShown, List.any_eq_true]
  constructor
  · rintro ⟨leaf, hleaf, hshown⟩
    exact (hpath leaf (mem_leaves.1 hleaf).1).1 hshown
  · intro hcovers
    obtain ⟨leaf, hleaf⟩ := p.exists_leaf
    exact ⟨leaf, hleaf, (hpath leaf (mem_leaves.1 hleaf).1).2 hcovers⟩

/-- A part under such a name stays whole if what is above is covered. -/
theorem thin_of_covers (h : Unspelled name) (hunder : p.Under (above ++ [name]))
    (hcovers : c.Covers above) : p.thin c.keeps = p := by
  obtain ⟨rest, hrest⟩ := hunder
  have hkeeps : ∀ below, c.keeps (p.path ++ below) = true := by
    intro below
    have hpath : p.path ++ below = above ++ name :: (rest ++ below) := by simp [← hrest]
    rw [hpath, Criterion.keeps_unspelled h]
    exact hcovers
  rw [thin, Tree.thin_of_keeps hkeeps]

/-- Only the root has no container around it, and it lies under no name. -/
theorem level_ne_zero_of_under {v : Tree} (hp : p ∈ v.parts) (hunder : p.Under (above ++ [name])) :
    p.level ≠ 0 := by
  rcases (mem_parts (p := ⟨0, [], v⟩)).1 hp with rfl | ⟨child, hchild, hin⟩
  · have hlength := List.IsPrefix.length_le hunder
    simp at hlength
  · have hlevel := level_of_mem_children hchild
    have hle := level_le_of_mem_parts hin
    omega

end Part

/-- What pruning leaves at such a name and under it: everything, if what is above is covered, and
otherwise nothing. -/
theorem Tree.parts_prune_under (h : Unspelled name) (c : Criterion) (v : Tree)
    (above : List String) :
    (v.prune c).parts.filter (·.Under (above ++ [name])) =
      if c.Covers above then v.parts.filter (·.Under (above ++ [name])) else [] := by
  have hleft : ∀ p ∈ v.parts, (decide ((p.thin c.keeps).Under (above ++ [name])) &&
        (decide (p.level = 0) || p.holdsShown c.keeps)) =
      (decide (c.Covers above) && decide (p.Under (above ++ [name]))) := by
    intro p hp
    -- thinning moves no part to another path
    have hthin : (p.thin c.keeps).Under (above ++ [name]) ↔ p.Under (above ++ [name]) := Iff.rfl
    by_cases hunder : p.Under (above ++ [name])
    · rw [Bool.eq_iff_iff]
      simp [hthin, hunder, Part.level_ne_zero_of_under hp hunder,
        Part.holdsShown_iff_covers h hunder]
    · simp [hthin, hunder]
  rw [prune_eq_thin, parts_thin (fun _ _ => Criterion.keeps_of_append), List.filter_map,
    List.filter_filter]
  simp only [Function.comp_apply]
  rw [List.filter_congr hleft]
  split
  case isTrue hcovers =>
    simp only [hcovers, decide_true, Bool.true_and]
    calc (v.parts.filter (·.Under (above ++ [name]))).map (Part.thin c.keeps)
        = (v.parts.filter (·.Under (above ++ [name]))).map id := by
          apply List.map_congr_left
          intro p hp
          exact Part.thin_of_covers h (of_decide_eq_true (List.mem_filter.1 hp).2) hcovers
      _ = v.parts.filter (·.Under (above ++ [name])) := List.map_id _
  case isFalse hcovers => simp [hcovers]

/-- A name that selector text cannot spell is reached only from above. Whatever lies at such a name
or under it is reached exactly by the selectors that end in front of the name, and pruning keeps
all of it or nothing, as a selector, of the caller's or always included, ends at a property above
or does not. In particular a property with the text of a selector for its name is not reached by
that selector, unless the selector ends above it, and what the cache answers for such a property
and for what the selector names is told apart. -/
theorem Tree.prune_unspelled (c : Criterion) (v : Tree) (above : List String) (name : String)
    (h : Unspelled name) :
    (∀ (s : Selection) (mode : CaseMode) (below : List String),
      s.reaches mode (above ++ name :: below) = true ↔ ∃ x ∈ s.selectors,
        x.size ≤ above.length ∧ mode.Leads x.names (above ++ name :: below)) ∧
    (v.prune c).parts.filter (·.Under (above ++ [name])) =
      (if c.Covers above then v.parts.filter (·.Under (above ++ [name])) else []) ∧
    ∀ x : Selector, 2 ≤ x.size → Unspelled x.text ∧
      (∀ mode, related mode (above ++ [x.text]) x.names = true ↔ mode.Leads x.names above) ∧
      ∀ (cache : MatchCache) (answer other : Unit → Bool),
        ((cache.ask (above ++ [x.text]) answer).2.ask (above ++ x.names) other).1 =
            (cache.ask (above ++ x.names) other).1 ∧
          ((cache.ask (above ++ x.names) answer).2.ask (above ++ [x.text]) other).1 =
            (cache.ask (above ++ [x.text]) other).1 := by
  refine ⟨?_, parts_prune_under h c v above, ?_⟩
  · intro s mode below
    rw [Selection.reaches_unspelled_iff h]
    refine exists_congr fun x => and_congr_right fun _ => ?_
    rw [leads_unspelled_iff h]
    exact ⟨fun hleads => ⟨size_le_of_leads hleads, hleads⟩, And.right⟩
  · intro x hsize
    have htext := Selector.unspelled_text hsize
    -- the names of a selector are segments, and its text is none
    have hne : above ++ [x.text] ≠ above ++ x.names := by
      intro hsame
      have hmem : x.text ∈ x.names := List.append_cancel_left hsame ▸ List.mem_cons_self
      rw [unspelled_iff, Selector.isSegment_of_mem_names hmem] at htext
      contradiction
    refine ⟨htext, fun mode => related_unspelled_iff htext x, fun cache answer other => ⟨?_, ?_⟩⟩
    · exact cache.ask_ask_of_ne hne answer other
    · exact cache.ask_ask_of_ne hne.symm answer other

/-- The selector `a/b` keeps the empty name under `a/b`, and not the property `a/b`. -/
theorem Tree.prune_unspelled_slash :
    let x : Selector := ⟨[⟨"a", by decide⟩], ⟨"b", by decide⟩⟩
    let c : Criterion := ⟨.ofList [⟨[⟨"a", by decide⟩], ⟨"b", by decide⟩⟩], .insensitive, none⟩
    let v : Tree := .object [("a/b", .null), ("A", .object [("b", .object [("", .array [])]),
      ("b/", .null)])]
    Unspelled "" ∧ 2 ≤ x.size ∧ Unspelled "a/b" ∧ v.prune c =
        .object [("A", .object [("b", .object [("", .array [])])])] ∧
      (v.prune c).parts.filter (·.Under ["A", "b", ""]) = [⟨3, ["A", "b", ""], .array []⟩] ∧
      ∀ (cache : MatchCache) (answer other : Unit → Bool),
        ((cache.ask ["A", "b", "a/b"] answer).2.ask ["A", "b", "a", "b"] other).1 =
          (cache.ask ["A", "b", "a", "b"] other).1 := by
  intro x c v
  have hempty : Unspelled "" := Or.inl rfl
  have hall := prune_unspelled c v ["A", "b"] "" hempty
  have hcovers : c.Covers ["A", "b"] := by decide +kernel
  have hparts := hall.2.1
  rw [if_pos hcovers] at hparts
  obtain ⟨hslash, -, hcache⟩ := hall.2.2 x (by decide)
  exact ⟨hempty, by decide, hslash, (prune_eq_thin c v).trans rfl, hparts.trans rfl,
    fun cache answer other => (hcache cache answer other).1⟩

end PartialResponse
