import PartialResponse.Proofs.Json.Values

/-!
# PartialResponse.Proofs.Json.Reading — what is read has been written

A sequence of tokens is read as a value just if it is the tokens of some value, in
which names may stand more than once, and which is settled when it is read
(`ofTokens?_eq_some_iff`). Between the tokens, those read so far are the tokens in
front of a place in a value (`Comes`). Every token leads from one such place to
another (`comes_step`), so the last one leads behind a value. Main statement:
`parse?_eq_some_iff`.
-/

namespace PartialResponse.Json

open Progress

/-! ## Tokens of a container that is open -/

/-- The tokens of an array up to the end of its last item. -/
def arrayTokens : List Tree → List Token
  | [] => [.openArray]
  | item :: more => .openArray :: (tokensOf item ++ itemTokens more)

/-- The tokens of an object up to the end of its last property. -/
def objectTokens : Properties Tree → List Token
  | [] => [.openObject]
  | (name, value) :: more =>
    .openObject :: .scalar (.string name) :: .colon :: (tokensOf value ++ propertyTokens more)

/-- The token in front of another item or property. -/
def separator {α : Type} (done : List α) : List Token :=
  if done.isEmpty then [] else [.comma]

/-- Behind a first part comes a comma. -/
theorem separator_of_ne_nil {α : Type} {done : List α} (h : done ≠ []) :
    separator done = [.comma] := by
  cases done with
  | nil => exact absurd rfl h
  | cons first more => rfl

/-- An array is an open array and its bracket. -/
theorem tokensOf_array (items : List Tree) :
    tokensOf (.array items) = arrayTokens items ++ [.closeArray] := by
  cases items with
  | nil => rfl
  | cons item more => simp [tokensOf, arrayTokens]

/-- An object is an open object and its bracket. -/
theorem tokensOf_object (properties : Properties Tree) :
    tokensOf (.object properties) = objectTokens properties ++ [.closeObject] := by
  cases properties with
  | nil => rfl
  | cons property more => simp [tokensOf, objectTokens]

/-- Another item comes behind a comma. -/
theorem itemTokens_concat (items : List Tree) (item : Tree) :
    itemTokens (items ++ [item]) = itemTokens items ++ .comma :: tokensOf item := by
  induction items with
  | nil => simp [itemTokens]
  | cons first more ih => simp [itemTokens, ih]

/-- Another property comes behind a comma. -/
theorem propertyTokens_concat (properties : Properties Tree) (name : String) (value : Tree) :
    propertyTokens (properties ++ [(name, value)]) =
      propertyTokens properties ++ .comma :: .scalar (.string name) :: .colon :: tokensOf value := by
  induction properties with
  | nil => simp [propertyTokens]
  | cons first more ih => simp [propertyTokens, ih]

/-- Another item of an open array, which may be the first. -/
theorem arrayTokens_concat (items : List Tree) (item : Tree) :
    arrayTokens (items ++ [item]) = arrayTokens items ++ separator items ++ tokensOf item := by
  cases items with
  | nil => simp [arrayTokens, separator, itemTokens]
  | cons first more => simp [arrayTokens, separator, itemTokens_concat]

/-- Another property of an open object, which may be the first. -/
theorem objectTokens_concat (properties : Properties Tree) (name : String) (value : Tree) :
    objectTokens (properties ++ [(name, value)]) =
      objectTokens properties ++ separator properties ++ [.scalar (.string name), .colon] ++
        tokensOf value := by
  cases properties with
  | nil => simp [objectTokens, separator, propertyTokens]
  | cons first more => simp [objectTokens, separator, propertyTokens_concat]

/-! ## Places in a value -/

/-- What the properties of an object come to when they are set one after the other. -/
def settleAll (properties : Properties Tree) : Properties Tree :=
  Properties.setAll [] (properties.mapValues settle)

@[simp] theorem settleAll_nil : settleAll [] = [] := rfl

/-- Another property is set after those before it, in the place of one of its name if there is one.
-/
@[simp]
theorem settleAll_concat (properties : Properties Tree) (name : String) (value : Tree) :
    settleAll (properties ++ [(name, value)]) = (settleAll properties).set name (settle value) := by
  rw [settleAll, Properties.mapValues, List.map_append]
  exact Properties.setAll_concat _ _ _

/-- The deepest item, with another one. -/
@[simp]
theorem depthItems_concat (items : List Tree) (item : Tree) :
    Tree.depthItems (items ++ [item]) = max (Tree.depthItems items) item.depth := by
  induction items with
  | nil => simp [Tree.depthItems]
  | cons first more ih =>
    rw [List.cons_append, Tree.depthItems, Tree.depthItems, ih, Nat.max_assoc]

/-- The deepest property, with another one. -/
@[simp]
theorem depthProperties_concat (properties : Properties Tree) (name : String) (value : Tree) :
    Tree.depthProperties (properties ++ [(name, value)]) =
      max (Tree.depthProperties properties) value.depth := by
  induction properties with
  | nil => simp [Tree.depthProperties]
  | cons first more ih =>
    rw [List.cons_append, Tree.depthProperties, Tree.depthProperties, ih, Nat.max_assoc]

/-- The tokens in front of a value that stands in open containers, the innermost first. There is room
for all containers in what stands in front of it. -/
inductive Opens : List Token → List (Frame Tree) → Prop
  | root : Opens [] []
  | array {before outer} (haround : Opens before outer) (items : List Tree)
    (hroom : outer.length + Tree.depthItems items < maxDepth) :
    Opens (before ++ (arrayTokens items ++ separator items))
      (.array (items.map settle).reverse :: outer)
  | object {before outer} (haround : Opens before outer) (properties : Properties Tree)
    (hroom : outer.length + Tree.depthProperties properties < maxDepth) (name : String) :
    Opens (before ++ (objectTokens properties ++ separator properties ++
      [.scalar (.string name), .colon])) (.object (settleAll properties) name :: outer)

/-- The tokens in front of a place in a value. -/
inductive Comes : List Token → Progress Tree → Prop
  | atValue {before outer} (haround : Opens before outer) : Comes before (.atValue outer)
  | firstItem {before outer} (haround : Opens before outer) (hroom : outer.length < maxDepth) :
    Comes (before ++ [.openArray]) (.firstItem outer)
  | afterItem {before outer} (haround : Opens before outer) {items : List Tree} (hnonempty : items ≠ [])
    (hroom : outer.length + Tree.depthItems items < maxDepth) :
    Comes (before ++ arrayTokens items) (.afterItem outer (items.map settle).reverse)
  | firstName {before outer} (haround : Opens before outer) (hroom : outer.length < maxDepth) :
    Comes (before ++ [.openObject]) (.firstName outer)
  | atName {before outer} (haround : Opens before outer) {properties : Properties Tree}
    (hnonempty : properties ≠ []) (hroom : outer.length + Tree.depthProperties properties < maxDepth) :
    Comes (before ++ (objectTokens properties ++ [.comma])) (.atName outer (settleAll properties))
  | atColon {before outer} (haround : Opens before outer) (properties : Properties Tree)
    (hroom : outer.length + Tree.depthProperties properties < maxDepth) (name : String) :
    Comes (before ++ (objectTokens properties ++ separator properties ++ [.scalar (.string name)]))
      (.atColon outer (settleAll properties) name)
  | afterProperty {before outer} (haround : Opens before outer) {properties : Properties Tree}
    (hnonempty : properties ≠ []) (hroom : outer.length + Tree.depthProperties properties < maxDepth) :
    Comes (before ++ objectTokens properties) (.afterProperty outer (settleAll properties))
  | done (value : Tree) (hroom : value.depth ≤ maxDepth) :
    Comes (tokensOf value) (.done (settle value))

variable {before tokens : List Token} {outer : List (Frame Tree)} {p q : Progress Tree}
  {token : Token}

/-- No more containers are open than there may be. -/
theorem Opens.length_le (haround : Opens before outer) : outer.length ≤ maxDepth := by
  cases haround with
  | root => exact Nat.zero_le _
  | array _ _ hroom => exact Nat.le_trans (Nat.succ_le_succ (Nat.le_add_right _ _)) hroom
  | object _ _ hroom => exact Nat.le_trans (Nat.succ_le_succ (Nat.le_add_right _ _)) hroom

/-- A complete value is one more part of the innermost open container. -/
theorem comes_complete (haround : Opens before outer) (value : Tree)
    (hroom : outer.length + value.depth ≤ maxDepth) :
    Comes (before ++ tokensOf value) (complete Tree.visitor (settle value) outer) := by
  cases haround with
  | root => exact .done value (by simpa using hroom)
  | @array before outer haround items hfit =>
    -- the container takes up one level more than its parts
    have hdeeper : outer.length + Tree.depthItems (items ++ [value]) < maxDepth := by
      rw [List.length_cons] at hroom
      rw [depthItems_concat]
      omega
    have hread := Comes.afterItem haround (by simp) hdeeper
    rw [arrayTokens_concat, List.map_append, List.reverse_append] at hread
    simpa [complete] using hread
  | @object before outer haround properties hfit name =>
    have hdeeper : outer.length + Tree.depthProperties (properties ++ [(name, value)]) < maxDepth := by
      rw [List.length_cons] at hroom
      rw [depthProperties_concat]
      omega
    have hread := Comes.afterProperty haround (by simp) hdeeper
    rw [objectTokens_concat, settleAll_concat] at hread
    simpa [complete] using hread

/-- The first token of a value. -/
theorem comes_startValue (haround : Opens before outer) (h : startValue Tree.visitor outer token = some q) :
    Comes (before ++ [token]) q := by
  cases token with
  | scalar value =>
    rw [startValue_scalar] at h
    obtain rfl := Option.some.inj h
    have hread := comes_complete haround (.scalar value) (by simpa [Tree.depth] using haround.length_le)
    rwa [settle_scalar] at hread
  | openArray =>
    obtain ⟨hroom, hq⟩ := Option.ite_none_right_eq_some.1 h
    obtain rfl := Option.some.inj hq
    exact .firstItem haround hroom
  | openObject =>
    obtain ⟨hroom, hq⟩ := Option.ite_none_right_eq_some.1 h
    obtain rfl := Option.some.inj hq
    exact .firstName haround hroom
  | _ => cases h

/-- The end of an array. -/
theorem comes_array (haround : Opens before outer) (items : List Tree)
    (hroom : outer.length + Tree.depthItems items < maxDepth) :
    Comes (before ++ (arrayTokens items ++ [.closeArray]))
      (complete Tree.visitor (.array (items.map settle)) outer) := by
  have hread := comes_complete haround (.array items) (by rw [Tree.depth]; omega)
  rwa [settle_array, tokensOf_array] at hread

/-- The end of an object. -/
theorem comes_object (haround : Opens before outer) (properties : Properties Tree)
    (hroom : outer.length + Tree.depthProperties properties < maxDepth) :
    Comes (before ++ (objectTokens properties ++ [.closeObject]))
      (complete Tree.visitor (.object (settleAll properties)) outer) := by
  have hread := comes_complete haround (.object properties) (by rw [Tree.depth]; omega)
  rwa [settle_object, tokensOf_object] at hread

/-! ### One more token

A lemma for each place at which there is more than one way to go on. -/

/-- Behind an opening bracket: the array ends, or its first item starts. -/
theorem comes_firstItem (haround : Opens before outer) (hroom : outer.length < maxDepth)
    (h : step Tree.visitor (.firstItem outer) token = some q) :
    Comes (before ++ [.openArray] ++ [token]) q := by
  by_cases hclose : token = .closeArray
  · subst hclose
    obtain rfl := Option.some.inj h
    simpa [arrayTokens] using comes_array haround [] hroom
  · -- any other token is the first one of an item
    rw [step_firstItem _ hclose] at h
    have hinside : Opens (before ++ [.openArray]) (.array [] :: outer) := by
      simpa [arrayTokens, separator] using Opens.array haround [] hroom
    exact comes_startValue hinside h

/-- Behind an item: a comma, or the end of the array. -/
theorem comes_afterItem (haround : Opens before outer) {items : List Tree} (hnonempty : items ≠ [])
    (hroom : outer.length + Tree.depthItems items < maxDepth)
    (h : step Tree.visitor (.afterItem outer (items.map settle).reverse) token = some q) :
    Comes (before ++ arrayTokens items ++ [token]) q := by
  cases token with
  | comma =>
    obtain rfl := Option.some.inj h
    have hinside := Opens.array haround items hroom
    rw [separator_of_ne_nil hnonempty] at hinside
    simpa using Comes.atValue hinside
  | closeArray =>
    obtain rfl := Option.some.inj h
    simpa using comes_array haround items hroom
  | _ => cases h

/-- Behind an opening brace: the object ends, or its first name stands there. -/
theorem comes_firstName (haround : Opens before outer) (hroom : outer.length < maxDepth)
    (h : step Tree.visitor (.firstName outer) token = some q) :
    Comes (before ++ [.openObject] ++ [token]) q := by
  cases token with
  | closeObject =>
    obtain rfl := Option.some.inj h
    simpa [objectTokens] using comes_object haround [] hroom
  | scalar value =>
    -- only a string is a name
    cases value with
    | string name =>
      obtain rfl := Option.some.inj h
      simpa [objectTokens, separator] using Comes.atColon haround [] hroom name
    | _ => cases h
  | _ => cases h

/-- Behind a comma in an object, a name. -/
theorem comes_atName (haround : Opens before outer) {properties : Properties Tree}
    (hnonempty : properties ≠ []) (hroom : outer.length + Tree.depthProperties properties < maxDepth)
    (h : step Tree.visitor (.atName outer (settleAll properties)) token = some q) :
    Comes (before ++ (objectTokens properties ++ [.comma]) ++ [token]) q := by
  cases token with
  | scalar value =>
    cases value with
    | string name =>
      obtain rfl := Option.some.inj h
      have hread := Comes.atColon haround properties hroom name
      rw [separator_of_ne_nil hnonempty] at hread
      simpa using hread
    | _ => cases h
  | _ => cases h

/-- Behind a property: a comma, or the end of the object. -/
theorem comes_afterProperty (haround : Opens before outer) {properties : Properties Tree}
    (hnonempty : properties ≠ []) (hroom : outer.length + Tree.depthProperties properties < maxDepth)
    (h : step Tree.visitor (.afterProperty outer (settleAll properties)) token = some q) :
    Comes (before ++ objectTokens properties ++ [token]) q := by
  cases token with
  | comma =>
    obtain rfl := Option.some.inj h
    simpa using Comes.atName haround hnonempty hroom
  | closeObject =>
    obtain rfl := Option.some.inj h
    simpa using comes_object haround properties hroom
  | _ => cases h

/-- The step lemma: one more token. -/
theorem comes_step (hcomes : Comes tokens p) (h : step Tree.visitor p token = some q) :
    Comes (tokens ++ [token]) q := by
  cases hcomes with
  | atValue haround => exact comes_startValue haround h
  | firstItem haround hroom => exact comes_firstItem haround hroom h
  | afterItem haround hnonempty hroom => exact comes_afterItem haround hnonempty hroom h
  | firstName haround hroom => exact comes_firstName haround hroom h
  | atName haround hnonempty hroom => exact comes_atName haround hnonempty hroom h
  | atColon haround properties hroom name =>
    cases token with
    | colon =>
      obtain rfl := Option.some.inj h
      simpa using Comes.atValue (Opens.object haround properties hroom name)
    | _ => cases h
  | afterProperty haround hnonempty hroom => exact comes_afterProperty haround hnonempty hroom h
  | done value hroom => cases token <;> cases h

/-- The run lemma, by induction on the tokens that are still to be read. -/
theorem comes_foldlM {more : List Token} (hcomes : Comes tokens p)
    (h : more.foldlM (step Tree.visitor) p = some q) : Comes (tokens ++ more) q := by
  induction more generalizing tokens p with
  | nil =>
    obtain rfl := Option.some.inj h
    rwa [List.append_nil]
  | cons token more ih =>
    rw [List.foldlM_cons] at h
    obtain ⟨next, hnext, hmore⟩ := Option.bind_eq_some_iff.1 h
    have hread := ih (comes_step hcomes hnext) hmore
    rwa [List.append_assoc, List.singleton_append] at hread

/-! ## Tokens that are read -/

/-- Tokens are read as a tree just if they are those of a tree with room for its containers, and names
that stand more than once in an object are settled then. -/
theorem ofTokens?_eq_some_iff {t : Tree} : ofTokens? Tree.visitor tokens = some t ↔
    ∃ written : Tree, tokens = tokensOf written ∧ written.depth ≤ maxDepth ∧ settle written = t := by
  constructor
  · intro h
    obtain ⟨last, hrun, hresult⟩ := Option.bind_eq_some_iff.1 h
    have hcomes : Comes ([] ++ tokens) last := comes_foldlM (.atValue .root) hrun
    rw [List.nil_append] at hcomes
    cases hcomes with
    | done written hroom => exact ⟨written, rfl, hroom, Option.some.inj hresult⟩
    | _ => cases hresult
  · rintro ⟨written, rfl, hroom, rfl⟩
    exact ofTokens?_settle hroom

/-- **What is read has been written.** A text is read as a tree just if its tokens are those of some
tree that comes to it. -/
theorem parse?_eq_some_iff {text : List Char} {t : Tree} : parse? text = some t ↔
    ∃ written : Tree, Token.ofText? text = some (tokensOf written) ∧ written.depth ≤ maxDepth ∧
      settle written = t := by
  rw [parse?, Option.bind_eq_some_iff]
  constructor
  · rintro ⟨tokens, hlexed, hread⟩
    obtain ⟨written, rfl, hroom, hsettled⟩ := ofTokens?_eq_some_iff.1 hread
    exact ⟨written, hlexed, hroom, hsettled⟩
  · rintro ⟨written, hlexed, hroom, hsettled⟩
    exact ⟨_, hlexed, ofTokens?_eq_some_iff.2 ⟨written, rfl, hroom, hsettled⟩⟩

end PartialResponse.Json
