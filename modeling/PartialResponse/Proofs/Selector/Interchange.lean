import PartialResponse.Proofs.Prune.Refinement
import PartialResponse.Proofs.Selector.Forms
import Mathlib.Data.Set.Image

/-!
# PartialResponse.Proofs.Selector.Interchange — selections that reach the same paths

A selector that continues another one adds nothing to it: whatever path is above
or below the longer one is above or below the shorter one. So a selection reaches
what its minimal selectors reach (`reaches_iff_minimalForms`).

Conversely the minimal selectors show in what is reached. A path that goes on
behind a selector with a name that selector text cannot spell is reached only by
selectors that begin it (`reaches_below_iff`), and so tells which selectors lie
on the way. Main statement: `reaches_eq_iff_minimal`.
-/

namespace PartialResponse.Selection

/-- The selectors that no other selector of the selection begins. -/
def minimal (s : Selection) : Set Selector :=
  {x | x ∈ s.selectors ∧ ∀ y ∈ s.selectors, y.names <+: x.names → y = x}

/-- What a case mode sees of the selectors that no other selector of the selection begins. Selectors
that the mode does not tell apart count as one. -/
def minimalForms (s : Selection) (mode : CaseMode) : Set (List (List Char)) :=
  {form | (∃ x ∈ s.selectors, mode.forms x.names = form) ∧
    ∀ y ∈ s.selectors, mode.forms y.names <+: form → mode.forms y.names = form}

variable {s t : Selection} {mode : CaseMode} {x y : Selector} {path : List String}

/-! ## What the minimal selectors reach -/

theorem reaches_iff_forms : s.reaches mode path = true ↔
    ∃ x ∈ s.selectors, mode.forms path <+: mode.forms x.names ∨
      mode.forms x.names <+: mode.forms path := by
  simp only [reaches_iff, CaseMode.leads_iff_prefix]

/-- A minimal selector begins every selector. -/
theorem exists_minimalForm (mode : CaseMode) (hx : x ∈ s.selectors) :
    ∃ form ∈ s.minimalForms mode, form <+: mode.forms x.names := by
  induction hlength : (mode.forms x.names).length using Nat.strong_induction_on generalizing x with
  | h n ih =>
    by_cases hminimal : ∀ y ∈ s.selectors, mode.forms y.names <+: mode.forms x.names →
        mode.forms y.names = mode.forms x.names
    · exact ⟨mode.forms x.names, ⟨⟨x, hx, rfl⟩, hminimal⟩, List.prefix_rfl⟩
    · -- another selector begins this one, and it is shorter
      push Not at hminimal
      obtain ⟨y, hy, hbegins, hne⟩ := hminimal
      have hshorter : (mode.forms y.names).length < n := by
        rw [← hlength]
        exact lt_of_le_of_ne hbegins.length_le fun hsame => hne (hbegins.eq_of_length hsame)
      obtain ⟨form, hform, hfirst⟩ := ih _ hshorter hy rfl
      exact ⟨form, hform, hfirst.trans hbegins⟩

/-- A selection reaches what its minimal selectors reach. -/
theorem reaches_iff_minimalForms : s.reaches mode path = true ↔
    ∃ form ∈ s.minimalForms mode, mode.forms path <+: form ∨ form <+: mode.forms path := by
  rw [reaches_iff_forms]
  constructor
  · rintro ⟨x, hx, hrelated⟩
    obtain ⟨form, hform, hbegins⟩ := exists_minimalForm mode hx
    refine ⟨form, hform, ?_⟩
    rcases hrelated with habove | hbelow
    · -- two beginnings of one selector: one of them begins the other
      exact List.prefix_or_prefix_of_prefix habove hbegins
    · exact Or.inr (hbegins.trans hbelow)
  · rintro ⟨_, ⟨⟨x, hx, rfl⟩, -⟩, hrelated⟩
    exact ⟨x, hx, hrelated⟩

/-! ## A path that tells selectors apart -/

theorem nil_not_mem_forms (x : Selector) : [] ∉ mode.forms x.names := by
  intro hmem
  obtain ⟨name, hname, hnil⟩ := List.mem_map.1 hmem
  have hspelled := Selector.isSegment_of_mem_names hname
  rw [mode.isSegment_eq_form, hnil] at hspelled
  contradiction

/-- The empty name is no selector's, so what lies under it is reached only by selectors that begin
the path to it. -/
theorem reaches_below_iff : s.reaches mode (path ++ [""]) = true ↔
    ∃ y ∈ s.selectors, mode.forms y.names <+: mode.forms path := by
  have hforms : mode.forms (path ++ [""]) = mode.forms path ++ [[]] := by
    rw [CaseMode.forms, List.map_append]
    cases mode <;> rfl
  rw [reaches_iff_forms, hforms]
  constructor
  · rintro ⟨y, hy, habove | hbelow⟩
    · exact absurd (habove.subset (by simp)) (nil_not_mem_forms y)
    · rcases List.prefix_concat_iff.1 hbelow with hall | hbegins
      · exact absurd (hall ▸ List.mem_append_right _ List.mem_cons_self) (nil_not_mem_forms y)
      · exact ⟨y, hy, hbegins⟩
  · rintro ⟨y, hy, hbegins⟩
    exact ⟨y, hy, Or.inr (hbegins.trans (List.prefix_append _ _))⟩

/-- If the second selection reaches what the first reaches and no more, a minimal selector of the
first is one of the second. -/
theorem minimalForms_subset (h : ∀ path, s.reaches mode path = t.reaches mode path) :
    s.minimalForms mode ⊆ t.minimalForms mode := by
  rintro _ ⟨⟨x, hx, rfl⟩, hminimal⟩
  have hreached : t.reaches mode (x.names ++ [""]) = true := by
    rw [← h, reaches_below_iff]
    exact ⟨x, hx, List.prefix_rfl⟩
  obtain ⟨y, hy, hbegins⟩ := reaches_below_iff.1 hreached
  obtain ⟨_, ⟨⟨z, hz, rfl⟩, hleast⟩, hfirst⟩ := exists_minimalForm mode hy
  -- back in the first selection, some selector begins the one found in the second
  have hback : s.reaches mode (z.names ++ [""]) = true := by
    rw [h, reaches_below_iff]
    exact ⟨z, hz, List.prefix_rfl⟩
  obtain ⟨w, hw, hagain⟩ := reaches_below_iff.1 hback
  have hround : mode.forms w.names = mode.forms x.names :=
    hminimal w hw (hagain.trans (hfirst.trans hbegins))
  have hsame : mode.forms z.names = mode.forms x.names := by
    apply (hfirst.trans hbegins).eq_of_length_le
    rw [← hround]
    exact hagain.length_le
  exact hsame ▸ ⟨⟨z, hz, rfl⟩, hleast⟩

theorem reaches_eq_iff_minimalForms :
    (∀ path, s.reaches mode path = t.reaches mode path) ↔
      s.minimalForms mode = t.minimalForms mode := by
  constructor
  · intro h
    apply Set.Subset.antisymm (minimalForms_subset h)
    exact minimalForms_subset fun path => (h path).symm
  · intro h path
    rw [Bool.eq_iff_iff, reaches_iff_minimalForms, reaches_iff_minimalForms, h]

/-- With regard to case no two selectors have one form. -/
theorem forms_names_injective :
    Function.Injective fun x : Selector => CaseMode.sensitive.forms x.names := by
  intro x y h
  exact Selector.eq_of_names_eq (CaseMode.forms_sensitive_injective h)

theorem minimalForms_sensitive (s : Selection) :
    s.minimalForms .sensitive = (fun x => CaseMode.sensitive.forms x.names) '' s.minimal := by
  have hbegins : ∀ x y : Selector, CaseMode.sensitive.forms y.names <+:
      CaseMode.sensitive.forms x.names ↔ y.names <+: x.names := by
    intro x y
    refine ⟨fun h => ?_, fun h => h.map _⟩
    obtain ⟨names, hnames, hforms⟩ := List.prefix_map_iff.1 h
    rwa [CaseMode.forms_sensitive_injective hforms]
  ext form
  constructor
  · rintro ⟨⟨x, hx, rfl⟩, hminimal⟩
    refine ⟨x, ⟨hx, fun y hy h => ?_⟩, rfl⟩
    exact forms_names_injective (hminimal y hy ((hbegins x y).2 h))
  · rintro ⟨x, ⟨hx, hminimal⟩, rfl⟩
    refine ⟨⟨x, hx, rfl⟩, fun y hy h => ?_⟩
    rw [hminimal y hy ((hbegins x y).1 h)]

theorem minimal_eq_iff : s.minimal = t.minimal ↔
    s.minimalForms .sensitive = t.minimalForms .sensitive := by
  rw [minimalForms_sensitive, minimalForms_sensitive]
  exact (Set.image_injective.2 forms_names_injective).eq_iff.symm

/-! ## One selector more -/

/-- Adding a selector that continues one of the selection changes nothing. -/
theorem reaches_insert_of_leads (hy : y ∈ s.selectors) (hleads : mode.Leads y.names x.names)
    (path : List String) : (s.insert x).reaches mode path = s.reaches mode path := by
  rw [Bool.eq_iff_iff, reaches_iff_forms, reaches_iff_forms]
  rw [CaseMode.leads_iff_prefix] at hleads
  constructor
  · rintro ⟨z, hz, hrelated⟩
    rcases mem_insert.1 hz with hz | rfl
    · exact ⟨z, hz, hrelated⟩
    · refine ⟨y, hy, ?_⟩
      rcases hrelated with habove | hbelow
      · exact List.prefix_or_prefix_of_prefix habove hleads
      · exact Or.inr (hleads.trans hbelow)
  · rintro ⟨z, hz, hrelated⟩
    exact ⟨z, mem_insert.2 (Or.inl hz), hrelated⟩

/-- Adding a selector changes what is reached exactly if it neither equals nor continues one of the
selection. -/
theorem exists_reaches_insert_ne_iff :
    (∃ path, (s.insert x).reaches mode path ≠ s.reaches mode path) ↔
      ∀ y ∈ s.selectors, ¬ mode.Leads y.names x.names := by
  constructor
  · rintro ⟨path, hne⟩ y hy hleads
    exact hne (reaches_insert_of_leads hy hleads path)
  · intro hnew
    refine ⟨x.names ++ [""], ?_⟩
    have hafter : (s.insert x).reaches mode (x.names ++ [""]) = true :=
      reaches_below_iff.2 ⟨x, mem_insert.2 (Or.inr rfl), List.prefix_rfl⟩
    have hbefore : ¬ s.reaches mode (x.names ++ [""]) = true := by
      rw [reaches_below_iff]
      rintro ⟨y, hy, hbegins⟩
      exact hnew y hy (CaseMode.leads_iff_prefix.2 hbegins)
    rw [hafter]
    exact fun h => hbefore h.symm

/-- Selections that reach the same paths leave the same. -/
theorem prune_eq_of_reaches_eq (h : ∀ path, s.reaches mode path = t.reaches mode path)
    (always : Option AlwaysIncluded) (v : Tree) :
    v.prune ⟨s, mode, always⟩ = v.prune ⟨t, mode, always⟩ := by
  apply Tree.prune_eq_of_keeps_eq
  intro path
  rw [Criterion.keeps, Criterion.keeps, h]

theorem prune_always_eq_of_reaches_eq (h : ∀ path, s.reaches mode path = t.reaches mode path)
    (caller : Selection) (callerMode : CaseMode) (v : Tree) :
    v.prune ⟨caller, callerMode, some ⟨s, mode⟩⟩ =
      v.prune ⟨caller, callerMode, some ⟨t, mode⟩⟩ := by
  apply Tree.prune_eq_of_keeps_eq
  intro path
  simp only [Criterion.keeps, Option.any_some, AlwaysIncluded.reaches, h]

/-- Two selections reach the same paths exactly if they have the same minimal selectors, with the
names compared under the case mode; with regard to case these are the same selectors. One selector
more changes what is reached exactly if it neither equals nor continues one that is there, and
otherwise it changes no result of pruning either, be the selection the caller's or the one that
is always included. -/
theorem reaches_eq_iff_minimal (s t : Selection) (x : Selector) (mode : CaseMode) :
    ((∀ path, s.reaches mode path = t.reaches mode path) ↔
      s.minimalForms mode = t.minimalForms mode) ∧
    ((∀ path, s.reaches .sensitive path = t.reaches .sensitive path) ↔ s.minimal = t.minimal) ∧
    ((∃ path, (s.insert x).reaches mode path ≠ s.reaches mode path) ↔
      ∀ y ∈ s.selectors, ¬ mode.Leads y.names x.names) ∧
    ((∃ y ∈ s.selectors, mode.Leads y.names x.names) → ∀ v : Tree,
      (∀ always, v.prune ⟨s.insert x, mode, always⟩ = v.prune ⟨s, mode, always⟩) ∧
      ∀ caller callerMode, v.prune ⟨caller, callerMode, some ⟨s.insert x, mode⟩⟩ =
        v.prune ⟨caller, callerMode, some ⟨s, mode⟩⟩) := by
  refine ⟨reaches_eq_iff_minimalForms, ?_, exists_reaches_insert_ne_iff, ?_⟩
  · rw [minimal_eq_iff]
    exact reaches_eq_iff_minimalForms
  · rintro ⟨y, hy, hleads⟩ v
    have hsame := reaches_insert_of_leads hy hleads
    exact ⟨fun always => prune_eq_of_reaches_eq hsame always v,
      fun caller callerMode => prune_always_eq_of_reaches_eq hsame caller callerMode v⟩

/-- Without regard to case, `a/b` continues `A`. -/
theorem reaches_eq_iff_minimal_continued :
    let s : Selection := .ofList [⟨[], ⟨"A", by decide⟩⟩]
    let x : Selector := ⟨[⟨"a", by decide⟩], ⟨"b", by decide⟩⟩
    let v : Tree := .object [("a", .object [("b", .null), ("c", .null)]), ("d", .null)]
    (∃ y ∈ s.selectors, CaseMode.insensitive.Leads y.names x.names) ∧
      v.prune ⟨s.insert x, .insensitive, none⟩ = v.prune ⟨s, .insensitive, none⟩ ∧
      v.prune ⟨s, .insensitive, none⟩ =
        .object [("a", .object [("b", .null), ("c", .null)])] := by
  intro s x v
  have hcontinued : ∃ y ∈ s.selectors, CaseMode.insensitive.Leads y.names x.names :=
    ⟨⟨[], ⟨"A", by decide⟩⟩, by decide, CaseMode.leads_iff_prefix.2 (by decide)⟩
  have hsame := (reaches_eq_iff_minimal s s x .insensitive).2.2.2 hcontinued v
  exact ⟨hcontinued, hsame.1 none, (Tree.prune_eq_thin _ v).trans rfl⟩

end PartialResponse.Selection
