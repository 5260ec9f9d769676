/-!
# PartialResponse.Tree.Properties — ordered properties

The properties of an object keep the order in which they were first written.
Setting a property that is there already changes its value and not its place.
-/

namespace PartialResponse

/-- Named values in order. -/
abbrev Properties (α : Type) := List (String × α)

namespace Properties

variable {α : Type}

/-- Gives a property a value: a new name goes to the end, a name that is there keeps its place. -/
def set : Properties α → String → α → Properties α
  | [], name, value => [(name, value)]
  | (n, v) :: rest, name, value =>
    if n = name then (n, value) :: rest else (n, v) :: set rest name value

/-- The value of a property. -/
def get? : Properties α → String → Option α
  | [], _ => none
  | (n, v) :: rest, name => if n = name then some v else get? rest name

/-- The property names in order. -/
def names (properties : Properties α) : List String :=
  properties.map (·.1)

@[simp, grind =]
theorem get?_set (properties : Properties α) (name other : String) (value : α) :
    get? (set properties name value) other =
      if other = name then some value else get? properties other := by
  induction properties with
  | nil => simp [set, get?, eq_comm]
  | cons p rest ih =>
    obtain ⟨n, v⟩ := p
    by_cases h : n = name
    · subst h
      by_cases ho : other = n
      · subst ho
        simp [set, get?]
      · simp [set, get?, ho, Ne.symm ho]
    · by_cases ho : n = other
      · subst ho
        simp [set, get?, h]
      · simp [set, get?, h, ho, ih]

@[simp, grind =]
theorem names_set (properties : Properties α) (name : String) (value : α) :
    names (set properties name value) =
      if name ∈ names properties then names properties else names properties ++ [name] := by
  induction properties with
  | nil => simp [set, names]
  | cons p rest ih =>
    obtain ⟨n, v⟩ := p
    by_cases h : n = name
    · simp [set, names, h]
    · have hne : ¬name = n := fun he => h he.symm
      have htail : names (set rest name value) =
          if name ∈ names rest then names rest else names rest ++ [name] := ih
      by_cases hmem : name ∈ names rest
      · simp only [hmem, if_true] at htail
        simp_all [set, names]
      · simp only [hmem, if_false] at htail
        simp_all [set, names]

theorem nodup_names_set {properties : Properties α} (h : (names properties).Nodup) (name : String)
    (value : α) : (names (set properties name value)).Nodup := by
  grind [List.nodup_append]

end Properties

end PartialResponse
