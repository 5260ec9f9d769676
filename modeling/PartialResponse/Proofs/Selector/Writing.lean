import PartialResponse.Proofs.Selector.Parsing

/-!
# PartialResponse.Proofs.Selector.Writing — written selections read back

A selection is written as a list of paths with commas between them. That is a text of
the grammar without groups, and it stands for the selectors that were written, in their
order. So reading gives the selection back, with its order, and no two selections with
different selectors or a different order are written alike.
-/

namespace PartialResponse

open Grammar

namespace Selector

/-- Every selector is the path of its segments. -/
theorem exists_ofPath (x : Selector) : ∃ first more, x = ofPath first more := by
  cases hsegments : x.segments with
  | nil => exact absurd hsegments x.segments_ne_nil
  | cons first more =>
    refine ⟨first, more, eq_of_segments_eq ?_⟩
    rw [hsegments, segments_ofPath]

/-- A selector is written as the path of its segments. -/
theorem toList_text_ofPath (first : Segment) (more : List Segment) :
    (ofPath first more).text.toList = pathText first more := by
  rw [text, names, segments_ofPath]
  induction more generalizing first with
  | nil => simp [joinNames, pathText]
  | cons next more ih =>
    have hjoined : joinNames ((first :: next :: more).map Segment.name) =
        first.name ++ "/" ++ joinNames ((next :: more).map Segment.name) := rfl
    rw [hjoined, pathText_cons, ← ih next]
    simp

end Selector

namespace Selection

/-- What is written for selectors is a text of the grammar that stands for them. -/
theorem exists_terms_of_selectors {xs : List Selector} (hnonempty : xs ≠ []) :
    ∃ terms : Terms, terms.text = (",".intercalate (xs.map Selector.text)).toList ∧
      terms.expand = xs := by
  rw [String.toList_intercalate, List.map_map]
  induction xs with
  | nil => exact absurd rfl hnonempty
  | cons x xs ih =>
    rcases x.exists_ofPath with ⟨first, more, rfl⟩
    have hown := Selector.toList_text_ofPath first more
    -- there is a comma only if more selectors follow
    cases xs with
    | nil =>
      refine ⟨.one (.path first more), ?_, ?_⟩
      · simp [Terms.text, Term.text, hown]
      · simp [Terms.expand, Term.expand]
    | cons y xs =>
      rcases ih (List.cons_ne_nil y xs) with ⟨terms, htext, hexpand⟩
      refine ⟨.more (.path first more) terms, ?_, ?_⟩
      · rw [Terms.text, Term.text, htext]
        simp [hown, List.intercalate]
      · rw [Terms.expand, Term.expand, hexpand]
        rfl

/-- Nothing is erased from a list without repetitions. -/
theorem eraseDups_eq_self {xs : List Selector} (hnodup : xs.Nodup) : xs.eraseDups = xs := by
  induction xs with
  | nil => rfl
  | cons x xs ih =>
    rcases List.nodup_cons.mp hnodup with ⟨hfresh, hnodup⟩
    have hothers : xs.filter (fun y => !y == x) = xs := by
      apply List.filter_eq_self.mpr
      intro y hmem
      have hne : y ≠ x := fun heq => hfresh (heq ▸ hmem)
      simpa using hne
    rw [List.eraseDups_cons, hothers, ih hnodup]

theorem ext_selectors {s t : Selection} (h : s.selectors = t.selectors) : s = t := by
  cases s
  cases t
  congr

theorem text_eq_empty_iff {s : Selection} : s.text = "" ↔ s.selectors = [] := by
  constructor
  · intro hempty
    by_contra hnonempty
    rcases exists_terms_of_selectors hnonempty with ⟨terms, htext, -⟩
    have hwritten : terms.text = s.text.toList := htext
    rw [hempty] at hwritten
    exact text_ne_nil terms hwritten
  · intro hnone
    rw [text, hnone]
    rfl

/-- A selection that has been written is read as it was. -/
@[simp]
theorem parse_text (s : Selection) : parse s.text = .ok s := by
  by_cases hnone : s.selectors = []
  · have hnothing : s.text.toList = [] := by
      rw [text_eq_empty_iff.mpr hnone]
      rfl
    rw [parse, if_pos hnothing, ext_selectors (s := s) (t := empty) hnone]
  · rcases exists_terms_of_selectors hnone with ⟨terms, htext, hexpand⟩
    rw [parse_terms (t := s.text) htext, hexpand]
    apply congrArg Except.ok
    apply ext_selectors
    rw [selectors_ofList, eraseDups_eq_self s.nodup]

/-- Selections that are written alike are the same. -/
theorem text_injective {s t : Selection} (h : s.text = t.text) : s = t := by
  have hsame := s.parse_text
  rw [h, t.parse_text] at hsame
  exact (Except.ok.inj hsame).symm

end Selection

end PartialResponse
