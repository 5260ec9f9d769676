import PartialResponse.Proofs.Selector.Prefix

/-!
# PartialResponse.Proofs.Selector.Forms — what a case mode compares of a name

A case mode compares names by their forms: the characters of a name, or those of
its lower-case form. So one path leads to another exactly if the forms of its
names begin the forms of the other's (`leads_iff_prefix`).

Lower case never makes a reserved character, takes none away and leaves no name
empty that was not. So of two names that count as the same, selector text can
spell both or neither (`isSegment_eq_of_sameName`).
-/

namespace PartialResponse

/-! ## Lower case and reserved characters -/

namespace Text

/-- Capital letters, and the small letters they map to, lie above the reserved characters. -/
theorem caseRuns_above : ∀ run ∈ caseRuns, 64 < run.first ∧ 64 < run.first + run.shift := by
  decide +kernel

theorem not_isReserved_of_lt {c : Char} (h : 64 < c.toNat) : isReserved c = false := by
  rw [← Bool.not_eq_true]
  intro hreserved
  simp only [isReserved, Bool.or_eq_true, beq_iff_eq] at hreserved
  rcases hreserved with ((rfl | rfl) | rfl) | rfl <;> exact absurd h (by decide)

theorem not_isReserved_ofNat {n : Nat} (h : 64 < n) : isReserved (Char.ofNat n) = false := by
  by_cases hvalid : n.isValidChar
  · apply not_isReserved_of_lt
    rw [Char.ofNat, dif_pos hvalid]
    exact h
  · -- a number that is no character counts as the zero character
    have hzero : Char.ofNat n = Char.ofNat 0 := by
      rw [Char.ofNat, dif_neg hvalid]
      rfl
    rw [hzero]
    rfl

theorem lowerCase_ne_nil (c : Char) : lowerCase c ≠ [] := by
  unfold lowerCase
  split
  · exact List.cons_ne_nil _ _
  · split <;> exact List.cons_ne_nil _ _

theorem any_isReserved_lowerCase (c : Char) : (lowerCase c).any isReserved = isReserved c := by
  unfold lowerCase
  split
  case isTrue h =>
    subst h
    rfl
  case isFalse =>
    split
    case h_1 run hrun =>
      obtain ⟨hfirst, hshifted⟩ := caseRuns_above run (List.mem_of_find?_eq_some hrun)
      have hcovers := List.find?_some hrun
      simp only [CaseRun.covers, Bool.and_eq_true, decide_eq_true_iff] at hcovers
      have hlower : isReserved (Char.ofNat (c.toNat + run.shift).toNat) = false :=
        not_isReserved_ofNat (by omega)
      have hcapital : isReserved c = false := not_isReserved_of_lt (by omega)
      rw [List.any_cons, List.any_nil, hlower, hcapital, Bool.or_false]
    case h_2 => rw [List.any_cons, List.any_nil, Bool.or_false]

theorem isEmpty_lowerCaseText (s : String) : (lowerCaseText s).isEmpty = s.toList.isEmpty := by
  rw [lowerCaseText]
  cases s.toList with
  | nil => rfl
  | cons c cs => simp [lowerCase_ne_nil]

theorem any_isReserved_lowerCaseText (s : String) :
    (lowerCaseText s).any isReserved = s.toList.any isReserved := by
  rw [lowerCaseText, List.any_flatMap]
  congr 1
  funext c
  exact any_isReserved_lowerCase c

end Text

/-! ## Forms -/

namespace CaseMode

/-- What the mode compares of a name. -/
def form : CaseMode → String → List Char
  | sensitive, name => name.toList
  | insensitive, name => Text.lowerCaseText name

/-- What the mode compares of the names of a path. -/
def forms (mode : CaseMode) (path : List String) : List (List Char) :=
  path.map mode.form

theorem sameName_iff {mode : CaseMode} {a b : String} :
    mode.sameName a b = true ↔ mode.form a = mode.form b := by
  cases mode with
  | sensitive => rw [sameName, beq_iff_eq, form, form, String.toList_inj]
  | insensitive => rw [sameName, beq_iff_eq, form, form]

/-- One path leads to another if its forms begin the forms of the other. -/
theorem leads_iff_prefix {mode : CaseMode} {path other : List String} :
    mode.Leads path other ↔ mode.forms path <+: mode.forms other := by
  induction path generalizing other with
  | nil => simp [forms]
  | cons a path ih =>
    cases other with
    | nil => simp [forms]
    | cons b other =>
      have hrest : mode.Leads path other ↔ path.map mode.form <+: other.map mode.form := ih
      rw [leads_cons, sameName_iff, hrest, forms, forms, List.map_cons, List.map_cons,
        List.cons_prefix_cons]

theorem forms_sensitive_injective : Function.Injective sensitive.forms := by
  apply List.map_injective_iff.2
  intro a b h
  exact String.toList_inj.1 h

/-- Whether selector text can spell a name shows in its form. -/
theorem isSegment_eq_form (mode : CaseMode) (name : String) :
    isSegment name = (!(mode.form name).isEmpty && !(mode.form name).any isReserved) := by
  rw [isSegment, ← List.not_any_eq_all_not]
  cases mode with
  | sensitive => rfl
  | insensitive => rw [form, Text.isEmpty_lowerCaseText, Text.any_isReserved_lowerCaseText]

theorem isSegment_eq_of_sameName {mode : CaseMode} {a b : String}
    (h : mode.sameName a b = true) : isSegment a = isSegment b := by
  rw [mode.isSegment_eq_form a, mode.isSegment_eq_form b, sameName_iff.1 h]

end CaseMode

end PartialResponse
