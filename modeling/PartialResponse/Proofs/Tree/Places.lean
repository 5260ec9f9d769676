import PartialResponse.Proofs.Tree.Parts

/-!
# PartialResponse.Proofs.Tree.Places — where the parts of a value are

The path to a part does not tell where the part is, since all items of an array
have one path. Its place does: the index of each item or property on the way.

A leaf can be replaced at its place by another leaf. The leaf that is put there
is a leaf of the new value, and all others were there before
(`mem_leaves_replaceAt`).
-/

namespace PartialResponse

/-- The value with another one at a place. -/
def Tree.replaceAt (new : Tree) : List Nat → Tree → Tree
  | [], _ => new
  | i :: place, .array items => .array (items.modify i (replaceAt new place))
  | i :: place, .object properties =>
    .object (properties.modify i fun property => (property.1, replaceAt new place property.2))
  | _ :: _, .scalar s => .scalar s

namespace Part

/-- The part at a place inside a part. -/
def at? : List Nat → Part → Option Part
  | [], p => some p
  | i :: place, p => p.children[i]?.bind (at? place)

/-- The part with another value at a place inside it. -/
def replaceAt (new : Tree) (place : List Nat) (p : Part) : Part :=
  { p with value := Tree.replaceAt new place p.value }

variable {new : Tree} {place : List Nat} {p q old : Part}

theorem children_replaceAt (new : Tree) (i : Nat) (place : List Nat) (p : Part) :
    (p.replaceAt new (i :: place)).children = p.children.modify i (replaceAt new place) := by
  obtain ⟨level, path, value⟩ := p
  cases value with
  | scalar s => cases i <;> rfl
  | array items =>
    apply List.ext_getElem?
    intro j
    simp only [replaceAt, Tree.replaceAt, children, List.getElem?_map, List.getElem?_modify]
    cases items[j]? with
    | none => rfl
    | some item => by_cases h : i = j <;> simp [h]
  | object properties =>
    apply List.ext_getElem?
    intro j
    simp only [replaceAt, Tree.replaceAt, children, List.getElem?_map, List.getElem?_modify]
    cases properties[j]? with
    | none => rfl
    | some property => by_cases h : i = j <;> simp [h]

/-- Replacing something inside a part leaves it as full as it was. -/
theorem isEmpty_replaceAt (new : Tree) (i : Nat) (place : List Nat) (p : Part) :
    (p.replaceAt new (i :: place)).value.isEmpty = p.value.isEmpty := by
  rw [Bool.eq_iff_iff, ← children_eq_nil, ← children_eq_nil, children_replaceAt,
    ← List.length_eq_zero_iff, ← List.length_eq_zero_iff, List.length_modify]

theorem isEmpty_eq_false_of_child {i : Nat} {child : Part} (h : p.children[i]? = some child) :
    p.value.isEmpty = false := by
  rw [← Bool.not_eq_true, ← children_eq_nil]
  intro hnil
  rw [hnil] at h
  contradiction

/-- The leaf that is put at a place is a leaf, with the level and path of what was there. -/
theorem replaced_mem_leaves (hnew : new.isEmpty = true) (h : at? place p = some old) :
    { old with value := new } ∈ (p.replaceAt new place).leaves := by
  induction place generalizing p with
  | nil =>
    obtain rfl : p = old := Option.some.inj h
    rw [leaves_of_isEmpty hnew]
    exact List.mem_cons_self
  | cons i place ih =>
    obtain ⟨child, hchild, hinside⟩ := Option.bind_eq_some_iff.1 h
    have hfull := isEmpty_replaceAt new i place p
    rw [isEmpty_eq_false_of_child hchild] at hfull
    rw [leaves_of_not_isEmpty hfull, children_replaceAt, List.mem_flatMap]
    refine ⟨child.replaceAt new place, ?_, ih hinside⟩
    apply List.mem_of_getElem? (i := i)
    rw [List.getElem?_modify, hchild]
    simp

/-- All other leaves have been there before. -/
theorem mem_leaves_replaceAt (hnew : new.isEmpty = true) (h : at? place p = some old)
    (hq : q ∈ (p.replaceAt new place).leaves) : q = { old with value := new } ∨ q ∈ p.leaves := by
  induction place generalizing p with
  | nil =>
    obtain rfl : p = old := Option.some.inj h
    rw [leaves_of_isEmpty hnew, List.mem_singleton] at hq
    exact Or.inl hq
  | cons i place ih =>
    obtain ⟨child, hchild, hinside⟩ := Option.bind_eq_some_iff.1 h
    -- a part with a child stays one when something inside is replaced
    have hfull := isEmpty_eq_false_of_child hchild
    rw [leaves_of_not_isEmpty ((isEmpty_replaceAt new i place p).trans hfull), children_replaceAt,
      List.mem_flatMap] at hq
    rw [leaves_of_not_isEmpty hfull]
    obtain ⟨other, hother, hq⟩ := hq
    obtain ⟨j, hj⟩ := List.getElem?_of_mem hother
    rw [List.getElem?_modify] at hj
    obtain ⟨before, hbefore, rfl⟩ := Option.map_eq_some_iff.1 hj
    by_cases hij : i = j
    · -- the child in which the leaf lies
      obtain rfl : child = before := Option.some.inj (hchild.symm.trans (hij ▸ hbefore))
      rw [if_pos hij] at hq
      rcases ih hinside hq with hput | hkept
      · exact Or.inl hput
      · exact Or.inr (List.mem_flatMap.2 ⟨child, List.mem_of_getElem? hchild, hkept⟩)
    · rw [if_neg hij] at hq
      exact Or.inr (List.mem_flatMap.2 ⟨before, List.mem_of_getElem? hbefore, hq⟩)

end Part

end PartialResponse
