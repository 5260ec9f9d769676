import PartialResponse.Proofs.Tree.Contents
import PartialResponse.Proofs.Yaml.MergeKeys
import PartialResponse.Proofs.Yaml.Nodes
import PartialResponse.Yaml.Value.Tree

/-!
# PartialResponse.Proofs.Yaml.Values — from the nodes of a written tree back to the tree

The node of a tree stands for the tree's own value: its strings are read as strings,
its other scalars as themselves. Following merge keys changes nothing where no
property has the name of one, and as property names differ, no property is lost.
-/

namespace PartialResponse

namespace Yaml

/-- What a value has to meet to be read as it is written, where collections may be nested `depth`
times. -/
structure Restorable (depth : Nat) (value : Tree) : Prop where
  /-- No object has two properties of one name. -/
  wellFormed : value.WellFormed
  depth_le : value.depth ≤ depth
  /-- All numbers are read as they are written. -/
  readsBack : ∀ n ∈ value.numbers, ReadsBack n

/-- An item has one level of collections less around it. -/
theorem Restorable.item {depth : Nat} {items : List Tree} (h : Restorable (depth + 1) (.array items)) :
    ∀ item ∈ items, Restorable depth item := by
  intro item hmem
  have hdepth := h.depth_le
  have hle := Tree.depth_le_depthItems item hmem
  rw [Tree.depth] at hdepth
  refine ⟨Tree.WellFormedItems.mem (by simpa [Tree.WellFormed] using h.wellFormed) item hmem, by omega, ?_⟩
  intro n hn
  apply h.readsBack
  rw [Tree.numbers, Tree.itemNumbers_eq_flatMap]
  exact List.mem_flatMap_of_mem hmem hn

/-- The value of a property has one level of collections less around it. -/
theorem Restorable.property {depth : Nat} {properties : Properties Tree}
    (h : Restorable (depth + 1) (.object properties)) :
    ∀ property ∈ properties, Restorable depth property.2 := by
  intro property hmem
  have hdepth := h.depth_le
  have hle := Tree.depth_le_depthProperties property hmem
  have hwell := h.wellFormed
  rw [Tree.depth] at hdepth
  rw [Tree.WellFormed] at hwell
  refine ⟨Tree.WellFormedProperties.mem hwell.2 property hmem, by omega, ?_⟩
  intro n hn
  apply h.readsBack
  rw [Tree.numbers, Tree.propertyNumbers_eq_flatMap]
  exact List.mem_flatMap_of_mem hmem hn

/-- The names of an object differ. -/
theorem Restorable.nodup {depth : Nat} {properties : Properties Tree}
    (h : Restorable depth (.object properties)) : (Properties.names properties).Nodup := by
  have hwell := h.wellFormed
  rw [Tree.WellFormed] at hwell
  exact hwell.1

/-- Collections are nested, so there is room for them. -/
theorem Restorable.exists_depth {depth : Nat} {value : Tree} (h : Restorable depth value)
    (hsize : 0 < value.depth) : ∃ inner, depth = inner + 1 :=
  ⟨depth - 1, by have := h.depth_le; omega⟩

/-! ## Values -/

mutual

/-- The YAML value of a tree. -/
def valueOf : Tree → Value
  | .scalar value => .scalar value
  | .array items => .sequence (valuesOf items)
  | .object properties => .mapping (entriesOf properties)

/-- The YAML values of items. -/
def valuesOf : List Tree → List Value
  | [] => []
  | item :: rest => valueOf item :: valuesOf rest

/-- The entries that properties are. -/
def entriesOf : Properties Tree → List (Value × Value)
  | [] => []
  | (name, value) :: rest => (.ofString name, valueOf value) :: entriesOf rest

end

namespace Value

/-- Strings are read as strings. -/
@[simp]
theorem ofScalar_string (s : String) : ofScalar none s (styleOf s == .plain) = .ok (ofString s) := by
  have hstyled := styled_styleOf s
  unfold ofScalar
  generalize styleOf s = style at hstyled ⊢
  cases hstyled with
  | plain hread _ =>
    -- only what reads as a string is written plain
    simp only [readsAsText, Bool.and_eq_true, beq_iff_eq] at hread
    simp [hread.1, ofAtom, ofString]
  | single _ => rfl
  | double => rfl
  | literal _ _ _ => rfl

/-- Scalars are read as what they are. -/
theorem ofScalar_shown {value : Scalar} (h : ∀ n, value = .number n → ReadsBack n) :
    ofScalar none (shownText value) (showsPlain value) = .ok (.scalar value) := by
  cases value with
  | null => rfl
  | bool b => cases b <;> rfl
  | number n =>
    have hread : Schema.resolve (shownText (.number n)) = .finite (.number n) := h n rfl
    simp [ofScalar, showsPlain, hread, ofAtom]
  | string s => exact ofScalar_string s

/-- A name that no property has is no key of an entry. -/
theorem hasKey_entriesOf {name : String} {properties : Properties Tree}
    (h : name ∉ Properties.names properties) : hasKey (.ofString name) (entriesOf properties) = false := by
  induction properties with
  | nil => rfl
  | cons property more ih =>
    obtain ⟨other, value⟩ := property
    obtain ⟨hne, hmore⟩ : name ≠ other ∧ name ∉ Properties.names more := by
      simpa [Properties.names] using h
    have hrest := ih hmore
    rw [hasKey] at hrest ⊢
    rw [entriesOf, List.any_cons, hrest, Bool.or_false]
    simpa [ofString, same, Scalar.same] using hne

/-- Properties are entries one by one. -/
@[simp]
theorem entriesOf_append (properties more : Properties Tree) :
    entriesOf (properties ++ more) = entriesOf properties ++ entriesOf more := by
  induction properties with
  | nil => rfl
  | cons property rest ih =>
    obtain ⟨name, value⟩ := property
    rw [List.cons_append, entriesOf, entriesOf, ih, List.cons_append]

/-! ## From nodes to values -/

variable {g : NodeGraph}

/-- Whether the node of a value stands for it. Without aliases nothing is counted. -/
def StandsFor (g : NodeGraph) (depth : Nat) (value : Tree) : Prop :=
  ofNode g depth (nodeOf value) = pure (valueOf value)

/-- A scalar without a tag is read by its text. -/
theorem ofNode_plain {depth : Nat} {text : String} {plain : Bool} {value : Value}
    (h : ofScalar none text plain = .ok value) : ofNode g depth (.scalar none text plain) = pure value := by
  rw [ofNode_scalar, h]
  rfl

/-- The nodes of items stand for the items. -/
theorem mapM_nodesOf {depth : Nat} {items : List Tree} (hitems : ∀ item ∈ items, StandsFor g depth item) :
    (nodesOf items).mapM (ofNode g depth) = pure (valuesOf items) := by
  induction items with
  | nil => rfl
  | cons item more ih =>
    obtain ⟨hitem, hmore⟩ := List.forall_mem_cons.1 hitems
    have hitem : ofNode g depth (nodeOf item) = pure (valueOf item) := hitem
    rw [nodesOf, List.mapM_cons, hitem, pure_bind, ih hmore, pure_bind, valuesOf]

/-- The nodes of properties stand for the properties. As the names differ, no key is refused. -/
theorem foldlM_pairsOf {depth : Nat} {done properties : Properties Tree}
    (hvalues : ∀ property ∈ properties, StandsFor g depth property.2)
    (hnodup : (Properties.names (done ++ properties)).Nodup) :
    (pairsOf properties).foldlM (fun entries (key, value) => do
      addEntry entries (← ofNode g depth key) (← ofNode g depth value)) (entriesOf done) =
      (pure (entriesOf (done ++ properties)) : StateT Nat (Except Fault) _) := by
  induction properties generalizing done with
  | nil => simp [pairsOf]
  | cons property more ih =>
    obtain ⟨hvalue, hmore⟩ := List.forall_mem_cons.1 hvalues
    obtain ⟨name, value⟩ := property
    have hvalue : ofNode g depth (nodeOf value) = pure (valueOf value) := hvalue
    have hfresh := Properties.fresh_of_nodup hnodup
    -- none of the entries before has the name
    have hadd : addEntry (entriesOf done) (.ofString name) (valueOf value) =
        .ok (entriesOf (done ++ [(name, value)])) := by
      rw [addEntry, hasKey_entriesOf hfresh, entriesOf_append]
      rfl
    have hrest := @ih (done ++ [(name, value)]) hmore (by simpa using hnodup)
    rw [List.append_assoc, List.singleton_append] at hrest
    rw [pairsOf, List.foldlM_cons, ← hrest]
    simp only [ofNode_plain (ofScalar_string name), hvalue, pure_bind, hadd]
    rfl

/-- The node of a value stands for the value, wherever there is room for its collections. -/
theorem standsFor {depth : Nat} {value : Tree} (h : Restorable depth value) : StandsFor g depth value := by
  induction value using Tree.induct generalizing depth with
  | scalar value =>
    have hread : ∀ n, value = .number n → ReadsBack n := by
      rintro n rfl
      exact h.readsBack n (by simp [Tree.numbers])
    rw [StandsFor, nodeOf, valueOf]
    exact ofNode_plain (ofScalar_shown hread)
  | array items ih =>
    obtain ⟨depth, rfl⟩ := h.exists_depth (by simp [Tree.depth])
    have hitems : ∀ item ∈ items, StandsFor g depth item := fun item hmem => ih item hmem (h.item item hmem)
    rw [StandsFor, nodeOf, valueOf, ofNode_sequence, mapM_nodesOf hitems]
    rfl
  | object properties ih =>
    obtain ⟨depth, rfl⟩ := h.exists_depth (by simp [Tree.depth])
    have hvalues : ∀ property ∈ properties, StandsFor g depth property.2 :=
      fun property hmem => ih property hmem (h.property property hmem)
    -- no name comes twice, so every property is added behind the others
    have hfold := @foldlM_pairsOf g depth [] properties hvalues h.nodup
    rw [entriesOf, List.nil_append] at hfold
    rw [StandsFor, nodeOf, valueOf, ofNode_mapping, hfold]
    rfl

/-- The document of a value stands for the value. -/
theorem ofGraph_ofTree {value : Tree} (h : Restorable maxDepth value) :
    ofGraph (NodeGraph.ofTree value) = .ok (valueOf value) := by
  have hvalue : ofNode (NodeGraph.ofTree value) maxDepth (NodeGraph.ofTree value).root = pure (valueOf value) :=
    standsFor h
  rw [ofGraph, hvalue]
  rfl

/-! ## From values to trees -/

/-- No entry is a merge key if no property has its name. -/
theorem takeMergeKey?_entriesOf {properties : Properties Tree} (h : ∀ property ∈ properties, property.1 ≠ "<<") :
    takeMergeKey? (entriesOf properties) = none := by
  induction properties with
  | nil => rfl
  | cons property more ih =>
    obtain ⟨hname, hmore⟩ := List.forall_mem_cons.1 h
    obtain ⟨name, value⟩ := property
    have hother : (ofString name).same mergeKey = false := by
      simpa [ofString, mergeKey, same, Scalar.same] using hname
    rw [entriesOf, takeMergeKey?, hother, ih hmore]
    rfl

/-- Items without merge keys stay as they are. -/
theorem mapM_valuesOf {rounds : Nat} {items : List Tree}
    (hitems : ∀ item ∈ items, mergeWithin? rounds (valueOf item) = some (valueOf item)) :
    (valuesOf items).mapM (mergeWithin? rounds) = some (valuesOf items) := by
  induction items with
  | nil => rfl
  | cons item more ih =>
    obtain ⟨hitem, hmore⟩ := List.forall_mem_cons.1 hitems
    rw [valuesOf, List.mapM_cons, hitem, ih hmore]
    rfl

/-- Properties without merge keys stay as they are. -/
theorem mapM_entriesOf {rounds : Nat} {properties : Properties Tree}
    (hvalues : ∀ property ∈ properties,
      mergeWithin? rounds (valueOf property.2) = some (valueOf property.2)) :
    ((entriesOf properties).mapM fun (key, value) => return (key, ← mergeWithin? rounds value)) =
      some (entriesOf properties) := by
  induction properties with
  | nil => rfl
  | cons property more ih =>
    obtain ⟨hvalue, hmore⟩ := List.forall_mem_cons.1 hvalues
    obtain ⟨name, value⟩ := property
    have hvalue : mergeWithin? rounds (valueOf value) = some (valueOf value) := hvalue
    rw [entriesOf, List.mapM_cons, ih hmore]
    simp [hvalue]

/-- Where no property has the name of merge keys, there are none to follow. -/
theorem mergeWithin?_valueOf {value : Tree} (h : "<<" ∉ value.allNames) (rounds : Nat) :
    mergeWithin? rounds (valueOf value) = some (valueOf value) := by
  induction value using Tree.induct generalizing rounds with
  | scalar value => cases rounds <;> rfl
  | array items ih =>
    cases rounds with
    | zero => rfl
    | succ rounds =>
      rw [Tree.allNames, Tree.itemNames_eq_flatMap] at h
      have hitems := mapM_valuesOf fun item hmem =>
        ih item hmem (fun hname => h (List.mem_flatMap_of_mem hmem hname)) rounds
      rw [valueOf, mergeWithin?, hitems]
      rfl
  | object properties ih =>
    cases rounds with
    | zero => rfl
    | succ rounds =>
      rw [Tree.allNames, Tree.propertyNames_eq_flatMap] at h
      have hvalues := mapM_entriesOf fun property hmem =>
        ih property hmem (fun hname => h (List.mem_flatMap_of_mem hmem (List.mem_cons_of_mem _ hname))) rounds
      -- the properties themselves are no merge keys, and neither are those further inside
      have hnone := takeMergeKey?_entriesOf fun property hmem hname =>
        h (List.mem_flatMap_of_mem hmem (List.mem_cons.2 (.inl hname.symm)))
      have hentries : mergeEntries? (entriesOf properties) = some (entriesOf properties) := by
        rw [mergeEntries?, hnone]
      rw [valueOf, mergeWithin?_mapping, hentries]
      exact congrArg (· >>= _) hvalues

/-- The items of a tree come back. -/
theorem itemsToTree_valuesOf {items : List Tree} (hitems : ∀ item ∈ items, toTree (valueOf item) = .ok item) :
    itemsToTree (valuesOf items) = .ok items := by
  induction items with
  | nil => rfl
  | cons item more ih =>
    obtain ⟨hitem, hmore⟩ := List.forall_mem_cons.1 hitems
    rw [valuesOf, itemsToTree, hitem, ih hmore]
    rfl

/-- The properties of a tree come back in their order, since each name is new where it is set. -/
theorem entriesToTree_entriesOf {done properties : Properties Tree}
    (hvalues : ∀ property ∈ properties, toTree (valueOf property.2) = .ok property.2)
    (hnodup : (Properties.names (done ++ properties)).Nodup) :
    entriesToTree done (entriesOf properties) = .ok (done ++ properties) := by
  induction properties generalizing done with
  | nil => simp [entriesOf, entriesToTree]
  | cons property more ih =>
    obtain ⟨hvalue, hmore⟩ := List.forall_mem_cons.1 hvalues
    obtain ⟨name, value⟩ := property
    have hvalue : toTree (valueOf value) = .ok value := hvalue
    have hfresh := Properties.fresh_of_nodup hnodup
    have hrest := @ih (done ++ [(name, value)]) hmore (by simpa using hnodup)
    rw [List.append_assoc, List.singleton_append] at hrest
    rw [entriesOf, entriesToTree, hvalue]
    simpa [ofString, keyText, Properties.set_fresh hfresh] using hrest

/-- The YAML value of a tree comes back as the tree. -/
theorem toTree_valueOf {depth : Nat} {value : Tree} (h : Restorable depth value) :
    toTree (valueOf value) = .ok value := by
  induction value using Tree.induct generalizing depth with
  | scalar value => rfl
  | array items ih =>
    obtain ⟨depth, rfl⟩ := h.exists_depth (by simp [Tree.depth])
    rw [valueOf, toTree, itemsToTree_valuesOf fun item hmem => ih item hmem (h.item item hmem)]
    rfl
  | object properties ih =>
    obtain ⟨depth, rfl⟩ := h.exists_depth (by simp [Tree.depth])
    have hentries := @entriesToTree_entriesOf [] properties
      (fun property hmem => ih property hmem (h.property property hmem)) h.nodup
    rw [valueOf, toTree, hentries]
    rfl

end Value

end Yaml

end PartialResponse
