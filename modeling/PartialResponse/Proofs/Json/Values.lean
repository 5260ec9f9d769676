import PartialResponse.Json.Parser
import PartialResponse.Proofs.Json.Conversions
import PartialResponse.Proofs.Json.Tokens

/-!
# PartialResponse.Proofs.Json.Values — written values read back

The tokens of a value lead from where a value may start to where that value is
complete, as long as no more containers are open than may be. A property takes the
place of one of the same name. As property names differ in a well-formed value, its
text reads back in every layout, and a text with more tokens behind a value is none.
-/

namespace PartialResponse.Json

open Progress

variable {p q r : Progress Tree} {ts us : List Token} {outer : List (Frame Tree)}

/-! ## Reading tokens -/

/-- Whether tokens lead from one state to another. -/
def Reads (p : Progress Tree) (tokens : List Token) (q : Progress Tree) : Prop :=
  tokens.foldlM (step Tree.visitor) p = some q

/-- No tokens lead nowhere. -/
theorem Reads.nil (p : Progress Tree) : Reads p [] p := rfl

/-- One token, and those behind it. -/
theorem Reads.cons {t : Token} (hstep : step Tree.visitor p t = some q) (h : Reads q ts r) :
    Reads p (t :: ts) r := by
  rw [Reads, List.foldlM_cons, hstep]
  exact h

/-- Tokens that lead on from where others have led. -/
theorem Reads.append (hp : Reads p ts q) (hq : Reads q us r) : Reads p (ts ++ us) r := by
  have hp : ts.foldlM (step Tree.visitor) p = some q := hp
  rw [Reads, List.foldlM_append, hp]
  exact hq

/-- Whether the tokens of a value lead to where the value is complete, wherever there is room for its
containers. Names that stand more than once in an object are settled. -/
def Parses (value : Tree) : Prop :=
  ∀ outer, outer.length + value.depth ≤ maxDepth →
    Reads (.atValue outer) (tokensOf value) (complete Tree.visitor (settle value) outer)

/-- An array may start with any value that may stand in it. -/
theorem Reads.firstItem {value : Tree} (h : Reads (.atValue (.array [] :: outer)) (tokensOf value) q) :
    Reads (.firstItem outer) (tokensOf value) q := by
  cases value with
  | scalar value => exact h
  | array items => cases items <;> exact h
  | object properties => cases properties <;> exact h

/-- Items behind the first, each with a comma in front. By induction on them, with those that are
done left open. -/
theorem reads_items {items : List Tree} (h : ∀ item ∈ items, Parses item)
    (hdepth : outer.length + Tree.depthItems items < maxDepth) (done : List Tree) :
    Reads (.afterItem outer done) (itemTokens items)
      (.afterItem outer ((items.map settle).reverse ++ done)) := by
  induction items generalizing done with
  | nil => exact Reads.nil _
  | cons item more ih =>
    obtain ⟨hitem, hmore⟩ := List.forall_mem_cons.1 h
    rw [Tree.depthItems] at hdepth
    have hroom : (Frame.array done :: outer).length + item.depth ≤ maxDepth := by
      rw [List.length_cons]
      omega
    have hread := ih hmore (by omega) (settle item :: done)
    rw [List.map_cons, List.reverse_cons, List.append_assoc, List.singleton_append]
    exact Reads.cons rfl ((hitem _ hroom).append hread)

/-- Properties behind the first, likewise. -/
theorem reads_properties {properties : Properties Tree} (h : ∀ property ∈ properties, Parses property.2)
    (hdepth : outer.length + Tree.depthProperties properties < maxDepth) (done : Properties Tree) :
    Reads (.afterProperty outer done) (propertyTokens properties)
      (.afterProperty outer (done.setAll (properties.mapValues settle))) := by
  induction properties generalizing done with
  | nil => exact Reads.nil _
  | cons property more ih =>
    obtain ⟨hvalue, hmore⟩ := List.forall_mem_cons.1 h
    obtain ⟨name, value⟩ := property
    rw [Tree.depthProperties] at hdepth
    have hroom : (Frame.object done name :: outer).length + value.depth ≤ maxDepth := by
      rw [List.length_cons]
      omega
    have hread := ih hmore (by omega) (done.set name (settle value))
    exact Reads.cons rfl (Reads.cons rfl (Reads.cons rfl ((hvalue _ hroom).append hread)))

/-- Every value is read from its tokens. By induction on the value. -/
theorem parses (value : Tree) : Parses value := by
  induction value using Tree.induct with
  | scalar value =>
    intro outer _
    rw [settle_scalar]
    exact Reads.cons (startValue_scalar outer value) (Reads.nil _)
  | array items hitems =>
    intro outer hdepth
    rw [Tree.depth] at hdepth
    rw [settle_array]
    -- the array takes one level of the room there is, whatever it holds
    have hopen : step Tree.visitor (.atValue outer) .openArray = some (.firstItem outer) := if_pos (by omega)
    cases items with
    | nil => exact Reads.cons hopen (Reads.cons rfl (Reads.nil _))
    | cons item more =>
      obtain ⟨hitem, hmore⟩ := List.forall_mem_cons.1 hitems
      rw [Tree.depthItems] at hdepth
      have hroom : (Frame.array [] :: outer).length + item.depth ≤ maxDepth := by
        rw [List.length_cons]
        omega
      have hfirst := hitem _ hroom
      have hothers : Reads (.afterItem outer [settle item]) (itemTokens more) _ :=
        reads_items hmore (by omega) [settle item]
      have hclose : step Tree.visitor (.afterItem outer ((more.map settle).reverse ++ [settle item])) .closeArray =
          some (complete Tree.visitor (.array ((item :: more).map settle)) outer) := by
        simp [step]
      exact Reads.cons hopen (hfirst.firstItem.append (hothers.append (Reads.cons hclose (Reads.nil _))))
  | object properties hvalues =>
    intro outer hdepth
    rw [Tree.depth] at hdepth
    rw [settle_object]
    have hopen : step Tree.visitor (.atValue outer) .openObject = some (.firstName outer) := if_pos (by omega)
    cases properties with
    | nil => exact Reads.cons hopen (Reads.cons rfl (Reads.nil _))
    | cons property more =>
      obtain ⟨hvalue, hmore⟩ := List.forall_mem_cons.1 hvalues
      obtain ⟨name, value⟩ := property
      rw [Tree.depthProperties] at hdepth
      have hroom : (Frame.object [] name :: outer).length + value.depth ≤ maxDepth := by
        rw [List.length_cons]
        omega
      have hfirst := hvalue _ hroom
      have hothers : Reads (.afterProperty outer [(name, settle value)]) (propertyTokens more) _ :=
        reads_properties hmore (by omega) [(name, settle value)]
      have hclose (read : Properties Tree) : step Tree.visitor (.afterProperty outer read) .closeObject =
          some (complete Tree.visitor (.object read) outer) := rfl
      exact Reads.cons hopen (Reads.cons rfl (Reads.cons rfl
        (hfirst.append (hothers.append (Reads.cons (hclose _) (Reads.nil _))))))

/-! ## Texts -/

/-- What a value has to meet to be read as it is written. -/
structure Restorable (value : Tree) : Prop where
  /-- No object has two properties of one name. -/
  wellFormed : value.WellFormed
  depth_le : value.depth ≤ maxDepth
  floatsReadBack : FloatsReadBack value

variable {value : Tree}

/-- What is read from the tokens of a value. -/
theorem ofTokens?_settle (hdepth : value.depth ≤ maxDepth) :
    ofTokens? Tree.visitor (tokensOf value) = some (settle value) := by
  have hread : (tokensOf value).foldlM (step Tree.visitor) (.atValue []) = some (.done (settle value)) :=
    parses value [] (by simpa using hdepth)
  rw [ofTokens?, hread]
  rfl

/-- A value is read from its tokens. -/
theorem ofTokens?_tokensOf (h : Restorable value) : ofTokens? Tree.visitor (tokensOf value) = some value := by
  rw [ofTokens?_settle h.depth_le, settle_of_wellFormed h.wellFormed]

/-- Tokens behind a value are too many. -/
theorem ofTokens?_append (h : Restorable value) (hmore : ts ≠ []) :
    ofTokens? Tree.visitor (tokensOf value ++ ts) = none := by
  have hread : (tokensOf value).foldlM (step Tree.visitor) (.atValue []) = some (.done (settle value)) :=
    parses value [] (by simpa using h.depth_le)
  cases ts with
  | nil => exact absurd rfl hmore
  | cons t ts =>
    have hstep : step Tree.visitor (.done (settle value)) t = none := rfl
    rw [ofTokens?, List.foldlM_append, hread]
    simp [List.foldlM_cons, hstep]

/-- The text of a value is read from the tokens of the value, whatever the layout, with white space
behind it. -/
theorem parse?_write_eq_ofTokens? (h : FloatsReadBack value) (layout : Layout) {spaces : List Char}
    (hspaces : ∀ c ∈ spaces, isSpace c = true) :
    parse? (write layout 0 value ++ spaces) = ofTokens? Tree.visitor (tokensOf value) := by
  have hapart : Apart spaces := by
    intro c hc
    have hspace := hspaces c (List.mem_of_mem_head? hc)
    simp only [isSpace, Bool.or_eq_true, beq_iff_eq] at hspace
    rcases hspace with ((rfl | rfl) | rfl) | rfl <;> rfl
  have hend : Token.ofText? spaces = some [] := by
    have hend := Token.ofText?_spaces (t := []) hspaces
    rw [List.append_nil] at hend
    rw [hend, Token.ofText?_nil]
  have htokens := lexes h layout 0 spaces hapart
  rw [parse?, htokens, hend, Option.map_some, List.append_nil, Option.bind_some]

/-- The text of a value reads back in every layout with white space behind it. -/
theorem parse?_write_append (h : Restorable value) (layout : Layout) {spaces : List Char}
    (hspaces : ∀ c ∈ spaces, isSpace c = true) : parse? (write layout 0 value ++ spaces) = some value := by
  rw [parse?_write_eq_ofTokens? h.floatsReadBack layout hspaces, ofTokens?_tokensOf h]

/-- The text of a value reads back in every layout. -/
theorem parse?_write (h : Restorable value) (layout : Layout) :
    parse? (write layout 0 value) = some value := by
  have hread := parse?_write_append h layout (List.forall_mem_nil _)
  rwa [List.append_nil] at hread

end PartialResponse.Json
