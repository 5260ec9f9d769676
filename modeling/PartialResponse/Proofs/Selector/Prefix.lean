import PartialResponse.Prune.Criterion
import Mathlib.Data.List.Forall2

/-!
# PartialResponse.Proofs.Selector.Prefix — selected paths

A criterion keeps a path by going through both path and selector as far as both
last. Here the same is said without a walk: a path is selected when it leads to
a selector or a selector leads to it, name by name under the case mode of the
set the selector is in. Main statements: the test and the relation agree, and
whatever lies above a selected path is selected.
-/

namespace PartialResponse

namespace CaseMode

/-- Whether the first path begins the second, its names taken under the case mode. -/
def Leads (mode : CaseMode) (path other : List String) : Prop :=
  List.Forall₂ (fun a b => mode.sameName a b = true) path (other.take path.length)

theorem sameName_comm (mode : CaseMode) (a b : String) : mode.sameName a b = mode.sameName b a := by
  cases mode <;> exact Bool.beq_comm

/-- Names that are the same with regard to case are the same without. -/
theorem sameName_insensitive {a b : String} (h : sensitive.sameName a b = true) :
    insensitive.sameName a b = true := by
  obtain rfl : a = b := by simpa [sameName] using h
  simp [sameName]

theorem leads_cons {mode : CaseMode} {a b : String} {path other : List String} :
    mode.Leads (a :: path) (b :: other) ↔ mode.sameName a b = true ∧ mode.Leads path other := by
  simp [Leads]

@[simp] theorem leads_nil (mode : CaseMode) (other : List String) : mode.Leads [] other := by
  simp [Leads]

@[simp] theorem not_leads_nil {mode : CaseMode} {a : String} {path : List String} :
    ¬ mode.Leads (a :: path) [] := by
  simp [Leads]

end CaseMode

/-- Two paths are related when one of them leads to the other. -/
theorem related_iff_leads {mode : CaseMode} {path other : List String} :
    related mode path other = true ↔ mode.Leads path other ∨ mode.Leads other path := by
  fun_induction related mode path other with
  | case1 other => simp
  | case2 path hne => simp
  | case3 a path b other ih =>
    rw [Bool.and_eq_true, ih, CaseMode.leads_cons, CaseMode.leads_cons, mode.sameName_comm b a,
      ← and_or_left]

theorem related_of_append {mode : CaseMode} {path below other : List String}
    (h : related mode (path ++ below) other = true) : related mode path other = true := by
  induction path generalizing other with
  | nil => cases other <;> rfl
  | cons a path ih =>
    cases other with
    | nil => rfl
    | cons b other =>
      rw [List.cons_append, related, Bool.and_eq_true] at h
      rw [related, Bool.and_eq_true]
      exact ⟨h.1, ih h.2⟩

/-- Paths related with regard to case are related without. -/
theorem related_insensitive {path other : List String}
    (h : related .sensitive path other = true) : related .insensitive path other = true := by
  induction path generalizing other with
  | nil => cases other <;> rfl
  | cons a path ih =>
    cases other with
    | nil => rfl
    | cons b other =>
      rw [related, Bool.and_eq_true] at h ⊢
      exact ⟨CaseMode.sameName_insensitive h.1, ih h.2⟩

namespace Selection

theorem reaches_iff {s : Selection} {mode : CaseMode} {path : List String} :
    s.reaches mode path = true ↔
      ∃ x ∈ s.selectors, mode.Leads path x.names ∨ mode.Leads x.names path := by
  simp only [reaches, List.any_eq_true, related_iff_leads]

theorem reaches_of_append {s : Selection} {mode : CaseMode} {path below : List String}
    (h : s.reaches mode (path ++ below) = true) : s.reaches mode path = true := by
  rw [reaches, List.any_eq_true] at h ⊢
  obtain ⟨x, hx, hrel⟩ := h
  exact ⟨x, hx, related_of_append hrel⟩

theorem reaches_insensitive {s : Selection} {path : List String}
    (h : s.reaches .sensitive path = true) : s.reaches .insensitive path = true := by
  rw [reaches, List.any_eq_true] at h ⊢
  obtain ⟨x, hx, hrel⟩ := h
  exact ⟨x, hx, related_insensitive hrel⟩

end Selection

namespace Criterion

/-- A path is selected when it leads to a selector of the caller's, or one of those leads to it,
or the same holds of a selector that is always included, under the case mode of that set. -/
def Selects (c : Criterion) (path : List String) : Prop :=
  (∃ x ∈ c.selection.selectors, c.mode.Leads path x.names ∨ c.mode.Leads x.names path) ∨
    ∃ a ∈ c.always, ∃ x ∈ a.selection.selectors,
      a.mode.Leads path x.names ∨ a.mode.Leads x.names path

theorem keeps_iff_selects {c : Criterion} {path : List String} :
    c.keeps path = true ↔ c.Selects path := by
  simp only [keeps, Selects, Bool.or_eq_true, Option.any_eq_true, AlwaysIncluded.reaches,
    Selection.reaches_iff]
  rfl

instance (c : Criterion) : DecidablePred c.Selects := fun _ =>
  decidable_of_iff _ keeps_iff_selects

/-- What lies above a selected path is selected, whichever of the two sets selects it. -/
theorem keeps_of_append {c : Criterion} {path below : List String}
    (h : c.keeps (path ++ below) = true) : c.keeps path = true := by
  rw [keeps, Bool.or_eq_true] at h ⊢
  rcases h with hcaller | halways
  · exact Or.inl (Selection.reaches_of_append hcaller)
  · rw [Option.any_eq_true] at halways ⊢
    obtain ⟨a, ha, hreach⟩ := halways
    exact Or.inr ⟨a, ha, Selection.reaches_of_append hreach⟩

/-- Without regard to case no path is lost. -/
theorem keeps_insensitive {selection : Selection} {always : Option AlwaysIncluded}
    {path : List String} (h : keeps ⟨selection, .sensitive, always⟩ path = true) :
    keeps ⟨selection, .insensitive, always⟩ path = true := by
  rw [keeps, Bool.or_eq_true] at h ⊢
  exact h.imp_left Selection.reaches_insensitive

end Criterion

end PartialResponse
