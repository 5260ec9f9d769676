import PartialResponse.Proofs.Tree.Contents
import Mathlib.Data.List.Perm.Basic

/-!
# PartialResponse.Proofs.Tree.Reordering — equal values as reordered ones

Values count as equal if they differ at most in the order of properties and in the
sign of zeros. The test of that counts the properties of two objects and looks each
property of the one up in the other. What follows from it is easier to see from a
relation that goes through both values at once (`Reordered`): the first property of
the one object stands anywhere in the other, and without it the rests are related.

Where no object has two properties of one name, the two say the same
(`same_iff_reordered`).
-/

namespace PartialResponse

/-! ## Looking properties up -/

namespace Properties

variable {α : Type} {front back : Properties α} {name other : String} {value : α}

/-- A property that is found stands somewhere. -/
theorem exists_of_get? {properties : Properties α} (h : get? properties name = some value) :
    ∃ front back, properties = front ++ (name, value) :: back := by
  induction properties with
  | nil => cases h
  | cons property rest ih =>
    rcases property with ⟨first, old⟩
    rw [get?] at h
    split at h
    · next hname =>
      cases h
      exact ⟨[], rest, by rw [hname, List.nil_append]⟩
    · rcases ih h with ⟨front, back, rfl⟩
      exact ⟨(first, old) :: front, back, rfl⟩

/-- A property is found behind properties of other names. -/
theorem get?_append_self (h : name ∉ names front) :
    get? (front ++ (name, value) :: back) name = some value := by
  induction front with
  | nil => rw [List.nil_append, get?, if_pos rfl]
  | cons property front ih =>
    rcases property with ⟨first, old⟩
    rw [names, List.map_cons, List.mem_cons, not_or] at h
    rw [List.cons_append, get?, if_neg (Ne.symm h.1)]
    exact ih h.2

/-- It makes no difference to any other name whether the property is there. -/
theorem get?_append_other (h : other ≠ name) :
    get? (front ++ (name, value) :: back) other = get? (front ++ back) other := by
  induction front with
  | nil => rw [List.nil_append, List.nil_append, get?, if_neg (Ne.symm h)]
  | cons property front ih =>
    rcases property with ⟨first, old⟩
    rw [List.cons_append, List.cons_append, get?, get?, ih]

end Properties

namespace Tree

open Properties (names)

/-! ## The relation -/

mutual

/-- The second value is the first with the properties of its objects in another order, at any depth,
and perhaps with zeros of another sign. -/
inductive Reordered : Tree → Tree → Prop
  | scalar {a b : Scalar} : a.same b = true → Reordered (.scalar a) (.scalar b)
  | array {items others : List Tree} : ReorderedItems items others →
      Reordered (.array items) (.array others)
  | object {properties others : Properties Tree} : ReorderedProperties properties others →
      Reordered (.object properties) (.object others)

/-- The items are reordered one by one: they keep their places themselves. -/
inductive ReorderedItems : List Tree → List Tree → Prop
  | nil : ReorderedItems [] []
  | cons {item other : Tree} {rest others : List Tree} : Reordered item other →
      ReorderedItems rest others → ReorderedItems (item :: rest) (other :: others)

/-- The first property stands anywhere among the others, and without it the rests are reordered. -/
inductive ReorderedProperties : Properties Tree → Properties Tree → Prop
  | nil : ReorderedProperties [] []
  | cons (name : String) {child other : Tree} {rest front back : Properties Tree} :
      Reordered child other → ReorderedProperties rest (front ++ back) →
      ReorderedProperties ((name, child) :: rest) (front ++ (name, other) :: back)

end

/-- Reordered items are as many. -/
theorem ReorderedItems.length_eq {items others : List Tree} :
    ReorderedItems items others → items.length = others.length
  | .nil => rfl
  | .cons _ hrest => congrArg (· + 1) hrest.length_eq

/-- Reordered properties have the same names in some order. -/
theorem ReorderedProperties.names_perm {properties others : Properties Tree}
    (h : ReorderedProperties properties others) : (names properties).Perm (names others) := by
  cases h with
  | nil => exact .refl _
  | cons name hchild hrest =>
    have hperm := hrest.names_perm.cons name
    rw [names, names, List.map_append] at hperm
    rw [names, names, List.map_cons, List.map_append, List.map_cons]
    exact hperm.trans List.perm_middle.symm

/-- Reordered properties are as many. -/
theorem ReorderedProperties.length_eq {properties others : Properties Tree}
    (h : ReorderedProperties properties others) : properties.length = others.length := by
  simpa [names] using h.names_perm.length_eq

/-- Reordering neither adds anything to a value nor takes anything away. -/
theorem Reordered.isEmpty_eq {t u : Tree} (h : t.Reordered u) : t.isEmpty = u.isEmpty := by
  cases h with
  | scalar hsame => rfl
  | array hitems => rw [isEmpty, isEmpty, size, size, hitems.length_eq]
  | object hproperties => rw [isEmpty, isEmpty, size, size, hproperties.length_eq]

/-! ## From the test to the relation -/

/-- The test looks at the others only through the names that it looks up. -/
theorem sameProperties_congr {properties others more : Properties Tree}
    (h : ∀ name ∈ names properties, Properties.get? others name = Properties.get? more name) :
    sameProperties properties others = sameProperties properties more := by
  induction properties with
  | nil => rfl
  | cons property rest ih =>
    rcases property with ⟨name, child⟩
    rw [names, List.map_cons, List.forall_mem_cons] at h
    rw [sameProperties, sameProperties, h.1, ih h.2]

mutual

/-- Values that pass the test are reordered. Only the first has to be well formed. -/
theorem reordered_of_same : (t : Tree) → {u : Tree} → t.WellFormed → t.same u = true →
    t.Reordered u
  | .scalar a, u, _, h => by
      cases u with
      | scalar b => exact .scalar h
      | array _ | object _ => cases h
  | .array items, u, hwell, h => by
      cases u with
      | array others => exact .array (reorderedItems_of_same items hwell h)
      | scalar _ | object _ => cases h
  | .object properties, u, hwell, h => by
      cases u with
      | object others =>
        rw [same, Bool.and_eq_true, beq_iff_eq] at h
        exact .object (reorderedProperties_of_same properties hwell.1 hwell.2 h.1 h.2)
      | scalar _ | array _ => cases h

/-- Items that pass the test one by one are reordered one by one. -/
theorem reorderedItems_of_same : (items : List Tree) → {others : List Tree} →
    WellFormedItems items → sameItems items others = true → ReorderedItems items others
  | [], others, _, h => by
      cases others with
      | nil => exact .nil
      | cons _ _ => cases h
  | item :: rest, others, hwell, h => by
      cases others with
      | nil => cases h
      | cons other others =>
        rw [sameItems, Bool.and_eq_true] at h
        exact .cons (reordered_of_same item hwell.1 h.1) (reorderedItems_of_same rest hwell.2 h.2)

/-- Properties that pass the test are as many, so each has its own counterpart. -/
theorem reorderedProperties_of_same : (properties : Properties Tree) →
    {others : Properties Tree} → (names properties).Nodup → WellFormedProperties properties →
    properties.length = others.length → sameProperties properties others = true →
    ReorderedProperties properties others
  | [], others, _, _, hlength, _ => by
      cases others with
      | nil => exact .nil
      | cons _ _ => cases hlength
  | (name, child) :: rest, others, hnodup, hwell, hlength, h => by
      rw [sameProperties, Bool.and_eq_true] at h
      rcases h with ⟨hfirst, hrest⟩
      cases hget : Properties.get? others name with
      | none =>
        rw [hget] at hfirst
        contradiction
      | some other =>
        rw [hget] at hfirst
        -- the counterpart is taken out, and the rest is compared with the rest
        rcases Properties.exists_of_get? hget with ⟨front, back, rfl⟩
        rw [names, List.map_cons, List.nodup_cons] at hnodup
        refine .cons name (reordered_of_same child hwell.1 hfirst) ?_
        apply reorderedProperties_of_same rest hnodup.2 hwell.2
        · simp only [List.length_append, List.length_cons] at hlength ⊢
          omega
        · -- the other names are found as well without the property that has been taken
          rw [← sameProperties_congr]
          · exact hrest
          · intro found hfound
            apply Properties.get?_append_other
            rintro rfl
            exact hnodup.1 hfound

end

/-! ## From the relation to the test -/

mutual

/-- Reordered values pass the test. Only the second has to be well formed. -/
theorem Reordered.same {t u : Tree} (h : t.Reordered u) (hwell : u.WellFormed) :
    t.same u = true :=
  match h with
  | .scalar hsame => hsame
  | .array hitems => hitems.same hwell
  | .object hproperties => by
      rw [Tree.same, Bool.and_eq_true, beq_iff_eq]
      exact ⟨hproperties.length_eq, hproperties.same hwell.1 hwell.2.mem⟩

/-- Reordered items pass the test one by one. -/
theorem ReorderedItems.same {items others : List Tree} (h : ReorderedItems items others)
    (hwell : WellFormedItems others) : sameItems items others = true :=
  match h with
  | .nil => rfl
  | .cons hitem hrest => by
      rw [sameItems, Bool.and_eq_true]
      exact ⟨hitem.same hwell.1, hrest.same hwell.2⟩

/-- Reordered properties pass the test: each is found under its name. -/
theorem ReorderedProperties.same {properties others : Properties Tree}
    (h : ReorderedProperties properties others) (hnodup : (names others).Nodup)
    (hwell : ∀ property ∈ others, property.2.WellFormed) :
    sameProperties properties others = true :=
  match h with
  | .nil => rfl
  | @ReorderedProperties.cons name _ other rest front back hchild hrest => by
      -- no property in front has the name, so the right one is found
      have hfront := Properties.fresh_of_nodup hnodup
      rw [names, List.map_append, List.map_cons, List.perm_middle.nodup_iff, List.nodup_cons,
        ← List.map_append] at hnodup
      rw [List.forall_mem_append, List.forall_mem_cons] at hwell
      rw [sameProperties, Properties.get?_append_self hfront, Bool.and_eq_true]
      have hothers : sameProperties rest (front ++ (name, other) :: back) =
          sameProperties rest (front ++ back) := by
        apply sameProperties_congr
        intro found hfound
        apply Properties.get?_append_other
        rintro rfl
        exact hnodup.1 (hrest.names_perm.subset hfound)
      constructor
      · exact hchild.same hwell.2.1
      · rw [hothers]
        exact hrest.same hnodup.2 (List.forall_mem_append.2 ⟨hwell.1, hwell.2.2⟩)

end

/-- Of well-formed values, the equal ones are the reordered ones. -/
theorem same_iff_reordered {t u : Tree} (ht : t.WellFormed) (hu : u.WellFormed) :
    t.same u = true ↔ t.Reordered u := by
  constructor
  · intro h
    exact reordered_of_same t ht h
  · intro h
    exact h.same hu

end Tree

end PartialResponse
