import PartialResponse.Json.Value
import PartialResponse.Proofs.Tree.Parts
import PartialResponse.Proofs.Tree.Properties

/-!
# PartialResponse.Proofs.Json.Conversions — values and trees

A JSON value and a tree are two forms of the same thing: converting one to the other
and back changes nothing, and both have the same text in every layout. A text that is
read as a value is read as the tree of that value, since the visitors of both make the
same of the same parts (`Carries`).

A tree that is made by visiting a value has the properties of every object set one
after the other. Visiting settles what names that stand more than once come to
(`decode_ofTree`), and gives the tree of the value if there are none
(`settle_of_wellFormed`).
-/

namespace PartialResponse

/-- The properties with other values. -/
def Properties.mapValues {α β : Type} (f : α → β) (properties : Properties α) : Properties β :=
  properties.map fun property => (property.1, f property.2)

namespace Properties

variable {α β : Type} (f : α → β)

/-- Other values, the same names. -/
@[simp]
theorem names_mapValues (properties : Properties α) :
    names (properties.mapValues f) = names properties := by
  rw [names, mapValues, List.map_map]
  rfl

/-- Setting a property and then taking other values, or the other way round. -/
@[simp]
theorem mapValues_set (properties : Properties α) (name : String) (value : α) :
    mapValues f (properties.set name value) = (mapValues f properties).set name (f value) := by
  induction properties with
  | nil => rfl
  | cons property more ih =>
    obtain ⟨n, v⟩ := property
    rw [set]
    have hfirst : mapValues f ((n, v) :: more) = (n, f v) :: mapValues f more := rfl
    rw [hfirst, set]
    split
    · rfl
    · rw [← ih]
      rfl

/-- The value found under a name is taken over like all others. -/
@[simp]
theorem get?_mapValues (properties : Properties α) (name : String) :
    get? (mapValues f properties) name = (get? properties name).map f := by
  induction properties with
  | nil => rfl
  | cons property more ih =>
    obtain ⟨n, v⟩ := property
    have hfirst : mapValues f ((n, v) :: more) = (n, f v) :: mapValues f more := rfl
    rw [hfirst, get?, get?]
    split
    · rfl
    · exact ih

end Properties

namespace Json

/-! ## Reading with one visitor and with another -/

section Visitors

variable {α β : Type} {f : α → β} {visitor : Visitor α} {visitor' : Visitor β}

/-- What one visitor makes of parts, a function carries over to what the other one makes of the parts
carried over. -/
structure Carries (f : α → β) (visitor : Visitor α) (visitor' : Visitor β) : Prop where
  scalar (value : Scalar) : visitor'.scalar value = (visitor.scalar value).map f
  array (items : List α) : f (visitor.array items) = visitor'.array (items.map f)
  insert (visited : Properties α) (name : String) (value : α) :
    (visitor.insert visited name value).mapValues f =
      visitor'.insert (visited.mapValues f) name (f value)
  object (properties : Properties α) :
    f (visitor.object properties) = visitor'.object (properties.mapValues f)

/-- The open container with other values. -/
def Frame.map (f : α → β) : Frame α → Frame β
  | .array items => .array (items.map f)
  | .object properties name => .object (properties.mapValues f) name

namespace Progress

/-- What has been read, with other values. -/
def map (f : α → β) : Progress α → Progress β
  | atValue outer => atValue (outer.map (Frame.map f))
  | firstItem outer => firstItem (outer.map (Frame.map f))
  | afterItem outer items => afterItem (outer.map (Frame.map f)) (items.map f)
  | firstName outer => firstName (outer.map (Frame.map f))
  | atName outer properties => atName (outer.map (Frame.map f)) (properties.mapValues f)
  | atColon outer properties name => atColon (outer.map (Frame.map f)) (properties.mapValues f) name
  | afterProperty outer properties =>
    afterProperty (outer.map (Frame.map f)) (properties.mapValues f)
  | done value => done (f value)

/-- A complete value goes into the innermost container on both sides. -/
theorem map_complete (hcarries : Carries f visitor visitor') (value : α) (outer : List (Frame α)) :
    (complete visitor value outer).map f = complete visitor' (f value) (outer.map (Frame.map f)) := by
  cases outer with
  | nil => rfl
  | cons frame outer =>
    cases frame with
    | array items => rfl
    | object properties name =>
      show afterProperty _ (Properties.mapValues f (visitor.insert properties name value)) = _
      rw [hcarries.insert]
      rfl

/-- A token that starts a value: the depth of containers is the same, so both sides refuse it or
neither. -/
theorem map_startValue (hcarries : Carries f visitor visitor') (outer : List (Frame α))
    (token : Token) : startValue visitor' (outer.map (Frame.map f)) token =
      (startValue visitor outer token).map (Progress.map f) := by
  -- a bracket that opens a container is refused beyond a depth, which carrying over keeps
  cases token with
  | scalar value =>
    rw [startValue, startValue, hcarries.scalar]
    cases visitor.scalar value with
    | error cause => rfl
    | ok made => exact congrArg some (map_complete hcarries made outer).symm
  | openArray =>
    rw [startValue, startValue, List.length_map]
    split <;> rfl
  | openObject =>
    rw [startValue, startValue, List.length_map]
    split <;> rfl
  | _ => rfl

/-- An array starts with a value unless it ends at once. -/
theorem step_firstItem (outer : List (Frame α)) {token : Token} (h : token ≠ .closeArray) :
    step visitor (firstItem outer) token = startValue visitor (.array [] :: outer) token := by
  cases token with
  | closeArray => exact absurd rfl h
  | _ => rfl

/-- The step lemma: reading a token commutes with carrying over. -/
theorem map_step (hcarries : Carries f visitor visitor') (p : Progress α) (token : Token) :
    step visitor' (p.map f) token = (step visitor p token).map (Progress.map f) := by
  -- each case that completes a value ends with this
  have hcomplete (value : α) (outer : List (Frame α)) :=
    congrArg some (map_complete hcarries value outer).symm
  cases p with
  | atValue outer => exact map_startValue hcarries outer token
  | firstItem outer =>
    by_cases hclose : token = .closeArray
    · subst hclose
      have hempty : visitor'.array [] = f (visitor.array []) := (hcarries.array []).symm
      rw [map, step, hempty]
      exact hcomplete _ outer
    · rw [map, step_firstItem _ hclose, step_firstItem _ hclose]
      exact map_startValue hcarries (.array [] :: outer) token
  | afterItem outer items =>
    cases token with
    | closeArray =>
      rw [map, step, ← List.map_reverse, ← hcarries.array]
      exact hcomplete _ outer
    | _ => rfl
  | firstName outer =>
    cases token with
    | closeObject =>
      have hempty : visitor'.object [] = f (visitor.object []) := (hcarries.object []).symm
      rw [map, step, hempty]
      exact hcomplete _ outer
    | scalar value => cases value <;> rfl
    | _ => rfl
  | atName outer properties =>
    cases token with
    | scalar value => cases value <;> rfl
    | _ => rfl
  | atColon outer properties name => cases token <;> rfl
  | afterProperty outer properties =>
    cases token with
    | closeObject =>
      rw [map, step, ← hcarries.object]
      exact hcomplete _ outer
    | _ => rfl
  | done value => cases token <;> rfl

end Progress

/-- The run lemma, by induction on the tokens. -/
theorem Progress.map_foldlM (hcarries : Carries f visitor visitor') (tokens : List Token)
    (p : Progress α) : tokens.foldlM (step visitor') (p.map f) =
      (tokens.foldlM (step visitor) p).map (Progress.map f) := by
  induction tokens generalizing p with
  | nil => rfl
  | cons token more ih =>
    rw [List.foldlM_cons, List.foldlM_cons, map_step hcarries]
    cases step visitor p token with
    | none => rfl
    | some q => exact ih q

/-- What tokens stand for is carried over. -/
theorem ofTokens?_map (hcarries : Carries f visitor visitor') (tokens : List Token) :
    ofTokens? visitor' tokens = (ofTokens? visitor tokens).map f := by
  have hrun : tokens.foldlM (Progress.step visitor') (.atValue []) =
      (tokens.foldlM (Progress.step visitor) (.atValue [])).map (Progress.map f) :=
    Progress.map_foldlM hcarries tokens (.atValue [])
  rw [ofTokens?, ofTokens?, hrun]
  cases tokens.foldlM (Progress.step visitor) (.atValue []) with
  | none => rfl
  | some p => cases p <;> rfl

end Visitors

namespace Value

/-! ## Part by part -/

/-- The items are converted one by one. -/
theorem itemsToTree_eq_map (items : List Value) : itemsToTree items = items.map toTree := by
  induction items with
  | nil => rfl
  | cons item more ih => rw [itemsToTree, ih, List.map_cons]

/-- The properties are converted one by one, and keep their names. -/
theorem propertiesToTree_eq_mapValues (properties : Properties Value) :
    propertiesToTree properties = properties.mapValues toTree := by
  induction properties with
  | nil => rfl
  | cons property more ih =>
    rw [propertiesToTree, ih]
    rfl

/-! ## Values and trees -/

@[simp]
theorem toTree_ofScalar (value : Scalar) : (ofScalar value).toTree = .scalar value := by
  cases value <;> rfl

mutual

/-- The tree of the value of a tree. -/
@[simp]
theorem toTree_ofTree : (t : Tree) → (ofTree t).toTree = t
  | .scalar value => toTree_ofScalar value
  | .array items => congrArg Tree.array (itemsToTree_itemsOfTree items)
  | .object properties => congrArg Tree.object (propertiesToTree_propertiesOfTree properties)

theorem itemsToTree_itemsOfTree : (items : List Tree) → itemsToTree (itemsOfTree items) = items
  | [] => rfl
  | item :: more => by
    rw [itemsOfTree, itemsToTree, toTree_ofTree item, itemsToTree_itemsOfTree more]

theorem propertiesToTree_propertiesOfTree : (properties : Properties Tree) →
    propertiesToTree (propertiesOfTree properties) = properties
  | [] => rfl
  | (name, value) :: more => by
    rw [propertiesOfTree, propertiesToTree, toTree_ofTree value,
      propertiesToTree_propertiesOfTree more]

end

mutual

/-- The value of the tree of a value. -/
@[simp]
theorem ofTree_toTree : (v : Value) → ofTree v.toTree = v
  | null => rfl
  | bool _ => rfl
  | number _ => rfl
  | string _ => rfl
  | array items => congrArg array (itemsOfTree_itemsToTree items)
  | object properties => congrArg object (propertiesOfTree_propertiesToTree properties)

theorem itemsOfTree_itemsToTree : (items : List Value) → itemsOfTree (itemsToTree items) = items
  | [] => rfl
  | item :: more => by
    rw [itemsToTree, itemsOfTree, ofTree_toTree item, itemsOfTree_itemsToTree more]

theorem propertiesOfTree_propertiesToTree : (properties : Properties Value) →
    propertiesOfTree (propertiesToTree properties) = properties
  | [] => rfl
  | (name, value) :: more => by
    rw [propertiesToTree, propertiesOfTree, ofTree_toTree value,
      propertiesOfTree_propertiesToTree more]

end

end Value

/-! ## Names that stand more than once -/

mutual

/-- The tree in which every name of an object stands once, in its first place and with its last
value. -/
def settle : Tree → Tree
  | .scalar value => .scalar value
  | .array items => .array (settleItems items)
  | .object properties => .object (settleProperties [] properties)

/-- The items of an array, settled one by one. -/
def settleItems : List Tree → List Tree
  | [] => []
  | item :: rest => settle item :: settleItems rest

/-- The properties that are settled, and those that are set one by one after them. -/
def settleProperties (done : Properties Tree) : Properties Tree → Properties Tree
  | [] => done
  | (name, value) :: rest => settleProperties (done.set name (settle value)) rest

end

@[simp]
theorem settle_scalar (value : Scalar) : settle (.scalar value) = .scalar value := by
  rw [settle]

@[simp]
theorem settle_array (items : List Tree) : settle (.array items) = .array (items.map settle) := by
  -- the recursion over items is a map
  have heach : settleItems items = items.map settle := by
    induction items with
    | nil => rfl
    | cons item more ih => rw [settleItems, ih, List.map_cons]
  rw [settle, heach]

/-- To settle properties is to settle their values, and to set them one after the other. -/
theorem settleProperties_eq_setAll (done properties : Properties Tree) :
    settleProperties done properties = done.setAll (properties.mapValues settle) := by
  induction properties generalizing done with
  | nil => rfl
  | cons property more ih =>
    rw [settleProperties, ih]
    rfl

@[simp]
theorem settle_object (properties : Properties Tree) :
    settle (.object properties) = .object (Properties.setAll [] (properties.mapValues settle)) := by
  rw [settle, settleProperties_eq_setAll]

/-- Nothing is to be settled if no object has two properties of one name. -/
theorem settle_of_wellFormed {t : Tree} (h : t.WellFormed) : settle t = t := by
  induction t using Tree.induct with
  | scalar value => exact settle_scalar value
  | array items ih =>
    rw [Tree.WellFormed] at h
    have hsame : ∀ item ∈ items, settle item = item :=
      fun item hmem => ih item hmem (Tree.WellFormedItems.mem h item hmem)
    rw [settle_array, List.map_congr_left hsame, List.map_id']
  | object properties ih =>
    rw [Tree.WellFormed] at h
    have hsame : ∀ property ∈ properties, (property.1, settle property.2) = property :=
      fun property hmem => Prod.ext rfl (ih property hmem (Tree.WellFormedProperties.mem h.2 property hmem))
    have hback : properties.mapValues settle = properties :=
      (List.map_congr_left hsame).trans (List.map_id' properties)
    rw [settle_object, hback, Properties.setAll_eq_self h.1]

namespace Value

mutual

/-- Visiting the value of a tree makes the settled tree of it. No value is refused. -/
@[simp]
theorem decode_ofTree : (t : Tree) → (ofTree t).decode = .ok (settle t)
  | .scalar value => by cases value with
    | number n => exact Tree.visitor_scalar (.number n)
    | _ => rfl
  | .array items => by
    rw [ofTree, decode, visit, visitItems_itemsOfTree items]
    rfl
  | .object properties => by
    rw [ofTree, decode, visit, visitProperties_propertiesOfTree [] properties]
    rfl

theorem visitItems_itemsOfTree : (items : List Tree) →
    visitItems Tree.visitor (itemsOfTree items) = .ok (settleItems items)
  | [] => rfl
  | item :: more => by
    have hitem : visit Tree.visitor (ofTree item) = .ok (settle item) := decode_ofTree item
    rw [itemsOfTree, visitItems, hitem, visitItems_itemsOfTree more]
    rfl

theorem visitProperties_propertiesOfTree (done : Properties Tree) : (properties : Properties Tree) →
    visitProperties Tree.visitor done (propertiesOfTree properties) =
      .ok (settleProperties done properties)
  | [] => rfl
  | (name, value) :: more => by
    have hvalue : visit Tree.visitor (ofTree value) = .ok (settle value) := decode_ofTree value
    rw [propertiesOfTree, visitProperties, hvalue]
    exact visitProperties_propertiesOfTree (done.set name (settle value)) more

end

/-! ## Texts -/

/-- The two visitors make the same of the same parts, up to conversion. -/
theorem carries_toTree : Carries toTree visitor Tree.visitor where
  scalar value := by
    simp [Except.map]
  array items := congrArg Tree.array (itemsToTree_eq_map items)
  insert visited name value := Properties.mapValues_set toTree visited name value
  object properties := congrArg Tree.object (propertiesToTree_eq_mapValues properties)

/-- A text is read as the tree of the value that it is read as. -/
theorem parse?_eq_map_toTree (text : List Char) :
    Json.parse? text = (Value.parse? text).map toTree := by
  rw [Json.parse?, Value.parse?]
  cases Token.ofText? text with
  | none => rfl
  | some tokens => exact ofTokens?_map carries_toTree tokens

mutual

/-- The text of a value at the given level of a layout. -/
def writeIn (layout : Layout) (level : Nat) : Value → List Char
  | null => scalarText .null
  | bool b => scalarText (.bool b)
  | number n => scalarText (.number n)
  | string s => scalarText (.string s)
  | array [] => ['[', ']']
  | array (item :: rest) =>
    '[' :: layout.line (level + 1) ++ writeIn layout (level + 1) item ++
      writeItemsIn layout (level + 1) rest ++ layout.line level ++ [']']
  | object [] => ['{', '}']
  | object ((name, value) :: rest) =>
    '{' :: layout.line (level + 1) ++ quoted name ++ layout.colon ++
      writeIn layout (level + 1) value ++ writePropertiesIn layout (level + 1) rest ++
      layout.line level ++ ['}']

/-- The items behind the first one. -/
def writeItemsIn (layout : Layout) (level : Nat) : List Value → List Char
  | [] => []
  | item :: rest =>
    ',' :: layout.line level ++ writeIn layout level item ++ writeItemsIn layout level rest

/-- The properties behind the first one. -/
def writePropertiesIn (layout : Layout) (level : Nat) : Properties Value → List Char
  | [] => []
  | (name, value) :: rest =>
    ',' :: layout.line level ++ quoted name ++ layout.colon ++ writeIn layout level value ++
      writePropertiesIn layout level rest

end

mutual

/-- The compact layout is that of the text on one line. -/
theorem writeIn_compact (level : Nat) : (v : Value) → writeIn .compact level v = write v
  | null => rfl
  | bool _ => rfl
  | number _ => rfl
  | string _ => rfl
  | array [] => rfl
  | array (item :: more) => by
    rw [writeIn, write, writeIn_compact _ item, writeItemsIn_compact _ more]
    simp [Layout.line]
  | object [] => rfl
  | object ((name, value) :: more) => by
    rw [writeIn, write, writeIn_compact _ value, writePropertiesIn_compact _ more]
    simp [Layout.line, Layout.colon]

theorem writeItemsIn_compact (level : Nat) :
    (items : List Value) → writeItemsIn .compact level items = writeItems items
  | [] => rfl
  | item :: more => by
    rw [writeItemsIn, writeItems, writeIn_compact _ item, writeItemsIn_compact _ more]
    simp [Layout.line]

theorem writePropertiesIn_compact (level : Nat) : (properties : Properties Value) →
    writePropertiesIn .compact level properties = writeProperties properties
  | [] => rfl
  | (name, value) :: more => by
    rw [writePropertiesIn, writeProperties, writeIn_compact _ value,
      writePropertiesIn_compact _ more]
    simp [Layout.line, Layout.colon]

end

mutual

/-- A tree and its value have the same text in every layout. -/
theorem writeIn_ofTree (layout : Layout) (level : Nat) :
    (t : Tree) → writeIn layout level (ofTree t) = Json.write layout level t
  | .scalar value => by cases value <;> rfl
  | .array [] => rfl
  | .array (item :: more) => by
    rw [ofTree, itemsOfTree, writeIn, Json.write, writeIn_ofTree layout _ item,
      writeItemsIn_itemsOfTree layout _ more]
  | .object [] => rfl
  | .object ((name, value) :: more) => by
    rw [ofTree, propertiesOfTree, writeIn, Json.write, writeIn_ofTree layout _ value,
      writePropertiesIn_propertiesOfTree layout _ more]

theorem writeItemsIn_itemsOfTree (layout : Layout) (level : Nat) : (items : List Tree) →
    writeItemsIn layout level (itemsOfTree items) = Json.writeItems layout level items
  | [] => rfl
  | item :: more => by
    rw [itemsOfTree, writeItemsIn, Json.writeItems, writeIn_ofTree layout _ item,
      writeItemsIn_itemsOfTree layout _ more]

theorem writePropertiesIn_propertiesOfTree (layout : Layout) (level : Nat) :
    (properties : Properties Tree) → writePropertiesIn layout level (propertiesOfTree properties) =
      Json.writeProperties layout level properties
  | [] => rfl
  | (name, value) :: more => by
    rw [propertiesOfTree, writePropertiesIn, Json.writeProperties, writeIn_ofTree layout _ value,
      writePropertiesIn_propertiesOfTree layout _ more]

end

end Value

end Json

end PartialResponse
