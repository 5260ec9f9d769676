import PartialResponse.Selector.Basic

/-!
# PartialResponse.Selector.Selection — sets of selectors

A selection is the set of selectors a caller asks for. It keeps the order in
which they were first added, which shows when it is written down, but two
selections are the same when they have the same selectors in any order.
-/

namespace PartialResponse

/-- A set of selectors in the order in which they were added. -/
structure Selection where
  selectors : List Selector
  nodup : selectors.Nodup

namespace Selection

/-- The selection without selectors. -/
def empty : Selection := ⟨[], List.nodup_nil⟩

/-- Whether the selector is in the selection. -/
def contains (s : Selection) (x : Selector) : Bool :=
  s.selectors.contains x

/-- The number of selectors. -/
def size (s : Selection) : Nat :=
  s.selectors.length

/-- Whether there are no selectors. -/
def isEmpty (s : Selection) : Bool :=
  s.selectors.isEmpty

/-- Adds a selector at the end, unless it is there already. -/
def insert (s : Selection) (x : Selector) : Selection :=
  if h : x ∈ s.selectors then s
  else ⟨s.selectors ++ [x], by
    rw [List.nodup_append]
    exact ⟨s.nodup, by simp, by rintro a ha b hb rfl; simp_all⟩⟩

/-- Adds selectors one by one. -/
def insertAll (s : Selection) (xs : List Selector) : Selection :=
  xs.foldl insert s

/-- The selection of the given selectors. -/
def ofList (xs : List Selector) : Selection :=
  empty.insertAll xs

/-- All selectors of the first selection, then those only the second has. -/
def union (s t : Selection) : Selection :=
  s.insertAll t.selectors

/-- Whether two selections have the same selectors, in any order. -/
def same (s t : Selection) : Bool :=
  s.size == t.size && s.selectors.all t.contains

/-- The selection as it is written: its selectors, separated by commas. -/
def text (s : Selection) : String :=
  ",".intercalate (s.selectors.map Selector.text)

@[simp] theorem selectors_empty : empty.selectors = [] := rfl

theorem selectors_insert (s : Selection) (x : Selector) :
    (s.insert x).selectors = if x ∈ s.selectors then s.selectors else s.selectors ++ [x] := by
  unfold insert
  split <;> simp [*]

@[simp, grind =]
theorem mem_insert {s : Selection} {x y : Selector} :
    y ∈ (s.insert x).selectors ↔ y ∈ s.selectors ∨ y = x := by
  rw [selectors_insert]
  split
  · exact ⟨Or.inl, by rintro (h | rfl) <;> assumption⟩
  · simp

@[simp, grind =]
theorem mem_insertAll {s : Selection} {xs : List Selector} {y : Selector} :
    y ∈ (s.insertAll xs).selectors ↔ y ∈ s.selectors ∨ y ∈ xs := by
  induction xs generalizing s with
  | nil => simp [insertAll]
  | cons x xs ih =>
    have h := @ih (s.insert x)
    simp only [insertAll, List.foldl_cons] at h ⊢
    rw [h, mem_insert, List.mem_cons, or_assoc]

@[simp, grind =]
theorem mem_union {s t : Selection} {y : Selector} :
    y ∈ (s.union t).selectors ↔ y ∈ s.selectors ∨ y ∈ t.selectors :=
  mem_insertAll

end Selection

end PartialResponse
