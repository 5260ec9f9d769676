import PartialResponse.Tree.Basic

/-!
# PartialResponse.Proofs.Tree.Contents — what a value holds

The numbers and the property names in a value, at any depth. What holds of a value as
a whole — that it is well formed, and how deep it is — holds of its items and of the
values of its properties.
-/

namespace PartialResponse

/-! ## Properties -/

namespace Properties

variable {α : Type}

/-- Where names differ, a name is not among those in front of it. -/
theorem fresh_of_nodup {done more : Properties α} {name : String} {value : α}
    (hnodup : (names (done ++ (name, value) :: more)).Nodup) : name ∉ names done := by
  rw [names, List.map_append, List.nodup_append] at hnodup
  intro hmem
  exact hnodup.2.2 name hmem name (by simp) rfl

/-- A property of a new name goes behind the others. -/
theorem set_fresh {properties : Properties α} {name : String} {value : α}
    (h : name ∉ names properties) :
    set properties name value = properties ++ [(name, value)] := by
  induction properties with
  | nil => rfl
  | cons property more ih =>
    obtain ⟨other, old⟩ := property
    obtain ⟨hne, hmore⟩ : name ≠ other ∧ name ∉ names more := by
      simpa [names] using h
    rw [set, if_neg (Ne.symm hne), ih hmore, List.cons_append]

/-- Setting a property makes up no other one. -/
theorem mem_set {properties : Properties α} {name : String} {value : α}
    {property : String × α} (h : property ∈ set properties name value) :
    property = (name, value) ∨ property ∈ properties := by
  induction properties with
  | nil => exact .inl (List.mem_singleton.1 h)
  | cons first more ih =>
    obtain ⟨other, old⟩ := first
    rw [set] at h
    split at h
    · next hname =>
      rcases List.mem_cons.1 h with rfl | hmem
      · exact .inl (by rw [hname])
      · exact .inr (List.mem_cons_of_mem _ hmem)
    · rcases List.mem_cons.1 h with rfl | hmem
      · exact .inr List.mem_cons_self
      · exact (ih hmem).imp_right (List.mem_cons_of_mem _)

end Properties

/-! ## Numbers and names -/

namespace Tree

mutual

/-- The numbers in a value. -/
def numbers : Tree → List Number
  | scalar (.number n) => [n]
  | scalar _ => []
  | array items => itemNumbers items
  | object properties => propertyNumbers properties

/-- The numbers in items. -/
def itemNumbers : List Tree → List Number
  | [] => []
  | item :: rest => numbers item ++ itemNumbers rest

/-- The numbers in properties. -/
def propertyNumbers : Properties Tree → List Number
  | [] => []
  | (_, value) :: rest => numbers value ++ propertyNumbers rest

end

mutual

/-- The names of all properties in a value. -/
def allNames : Tree → List String
  | scalar _ => []
  | array items => itemNames items
  | object properties => propertyNames properties

/-- The names of all properties in items. -/
def itemNames : List Tree → List String
  | [] => []
  | item :: rest => allNames item ++ itemNames rest

/-- The names of properties and of all properties in their values. -/
def propertyNames : Properties Tree → List String
  | [] => []
  | (name, value) :: rest => name :: (allNames value ++ propertyNames rest)

end

theorem itemNumbers_eq_flatMap (items : List Tree) : itemNumbers items = items.flatMap numbers := by
  induction items with
  | nil => rfl
  | cons item more ih => rw [itemNumbers, List.flatMap_cons, ih]

theorem propertyNumbers_eq_flatMap (properties : Properties Tree) :
    propertyNumbers properties = properties.flatMap fun property => property.2.numbers := by
  induction properties with
  | nil => rfl
  | cons property more ih => rw [propertyNumbers, List.flatMap_cons, ih]

theorem itemNames_eq_flatMap (items : List Tree) : itemNames items = items.flatMap allNames := by
  induction items with
  | nil => rfl
  | cons item more ih => rw [itemNames, List.flatMap_cons, ih]

theorem propertyNames_eq_flatMap (properties : Properties Tree) :
    propertyNames properties = properties.flatMap fun property => property.1 :: property.2.allNames := by
  induction properties with
  | nil => rfl
  | cons property more ih => rw [propertyNames, List.flatMap_cons, ih, List.cons_append]

/-- Every item of a well-formed array is well formed. -/
theorem WellFormedItems.mem {items : List Tree} (h : WellFormedItems items) :
    ∀ item ∈ items, item.WellFormed := by
  induction items with
  | nil => simp
  | cons item more ih =>
    rw [WellFormedItems] at h
    exact List.forall_mem_cons.2 ⟨h.1, ih h.2⟩

theorem wellFormedItems_of_mem {items : List Tree} (h : ∀ item ∈ items, item.WellFormed) :
    WellFormedItems items := by
  induction items with
  | nil => trivial
  | cons item more ih =>
    obtain ⟨hitem, hmore⟩ := List.forall_mem_cons.1 h
    exact ⟨hitem, ih hmore⟩

/-- Every value in a well-formed object is well formed. -/
theorem WellFormedProperties.mem {properties : Properties Tree} (h : WellFormedProperties properties) :
    ∀ property ∈ properties, property.2.WellFormed := by
  induction properties with
  | nil => simp
  | cons property more ih =>
    rw [WellFormedProperties] at h
    exact List.forall_mem_cons.2 ⟨h.1, ih h.2⟩

theorem wellFormedProperties_of_mem {properties : Properties Tree}
    (h : ∀ property ∈ properties, property.2.WellFormed) : WellFormedProperties properties := by
  induction properties with
  | nil => trivial
  | cons property more ih =>
    obtain ⟨hvalue, hmore⟩ := List.forall_mem_cons.1 h
    exact ⟨hvalue, ih hmore⟩

/-- No item is deeper than the deepest one. -/
theorem depth_le_depthItems {items : List Tree} : ∀ item ∈ items, item.depth ≤ depthItems items := by
  induction items with
  | nil => simp
  | cons item more ih =>
    rw [depthItems]
    exact List.forall_mem_cons.2 ⟨Nat.le_max_left _ _,
      fun x hx => Nat.le_trans (ih x hx) (Nat.le_max_right _ _)⟩

/-- Items that are no deeper than a bound stay below it together. -/
theorem depthItems_le {items : List Tree} {bound : Nat} (h : ∀ item ∈ items, item.depth ≤ bound) :
    depthItems items ≤ bound := by
  induction items with
  | nil => exact Nat.zero_le bound
  | cons item more ih =>
    obtain ⟨hitem, hmore⟩ := List.forall_mem_cons.1 h
    exact Nat.max_le.2 ⟨hitem, ih hmore⟩

/-- No value of a property is deeper than the deepest one. -/
theorem depth_le_depthProperties {properties : Properties Tree} :
    ∀ property ∈ properties, property.2.depth ≤ depthProperties properties := by
  induction properties with
  | nil => simp
  | cons property more ih =>
    rw [depthProperties]
    exact List.forall_mem_cons.2 ⟨Nat.le_max_left _ _,
      fun x hx => Nat.le_trans (ih x hx) (Nat.le_max_right _ _)⟩

/-- Values of properties that are no deeper than a bound stay below it together. -/
theorem depthProperties_le {properties : Properties Tree} {bound : Nat}
    (h : ∀ property ∈ properties, property.2.depth ≤ bound) : depthProperties properties ≤ bound := by
  induction properties with
  | nil => exact Nat.zero_le bound
  | cons property more ih =>
    obtain ⟨hvalue, hmore⟩ := List.forall_mem_cons.1 h
    exact Nat.max_le.2 ⟨hvalue, ih hmore⟩

end Tree

end PartialResponse
