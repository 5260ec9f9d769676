import PartialResponse.Json.Parser
import PartialResponse.Proofs.Tree.Contents

/-!
# PartialResponse.Proofs.Json.Bounds — what values that are read are like

No object of a value that is read has two properties of one name, and no more
containers lie around anything in it than may. While the tokens are read, this holds
of all parts that are complete, each of which leaves room for the containers around
it (`Progress.Fits`). Every token preserves it (`Progress.fits_step`), so it holds of
the value behind the last one.
-/

namespace PartialResponse

namespace Json

/-- Whether a value may stand inside so many containers. -/
structure Fits (outside : Nat) (value : Tree) : Prop where
  wellFormed : value.WellFormed
  depth_le : outside + value.depth ≤ maxDepth

/-- Whether the complete parts of an open container may stand in it, if it stands inside so many others. -/
inductive Frame.Fits (outside : Nat) : Frame Tree → Prop
  | array {items : List Tree} (hitems : ∀ item ∈ items, Json.Fits (outside + 1) item) :
    Frame.Fits outside (.array items)
  | object {properties : Properties Tree} (hnodup : (Properties.names properties).Nodup)
    (hvalues : ∀ property ∈ properties, Json.Fits (outside + 1) property.2) (name : String) :
    Frame.Fits outside (.object properties name)

/-- Whether open containers may stand inside each other, the innermost first. -/
inductive FramesFit : List (Frame Tree) → Prop
  | nil : FramesFit []
  | cons {frame : Frame Tree} {outer : List (Frame Tree)} (hframe : frame.Fits outer.length)
    (hroom : outer.length < maxDepth) (houter : FramesFit outer) : FramesFit (frame :: outer)

variable {outer : List (Frame Tree)}

/-- No more containers are open than may be. -/
theorem FramesFit.length_le (h : FramesFit outer) : outer.length ≤ maxDepth := by
  cases h with
  | nil => exact Nat.zero_le _
  | cons _ hroom _ => exact hroom

namespace Progress

/-- Whether what has been read may be part of a value. -/
def Fits : Progress Tree → Prop
  | atValue outer => FramesFit outer
  | firstItem outer => FramesFit (.array [] :: outer)
  | afterItem outer items => FramesFit (.array items :: outer)
  | firstName outer => ∀ name, FramesFit (.object [] name :: outer)
  | atName outer properties => ∀ name, FramesFit (.object properties name :: outer)
  | atColon outer properties name => FramesFit (.object properties name :: outer)
  | afterProperty outer properties => ∀ name, FramesFit (.object properties name :: outer)
  | done value => Json.Fits 0 value

variable {p q : Progress Tree} {token : Token}

/-- A value that fits goes into the innermost container, or is all there is. -/
theorem fits_complete {value : Tree} (hvalue : Json.Fits outer.length value) (houter : FramesFit outer) :
    (complete Tree.visitor value outer).Fits := by
  cases houter with
  | nil => exact hvalue
  | cons hframe hroom houter =>
    cases hframe with
    | array hitems => exact .cons (.array (List.forall_mem_cons.2 ⟨hvalue, hitems⟩)) hroom houter
    -- a name that comes again gets the new value, so no name is there twice
    | object hnodup hvalues name =>
      intro next
      refine .cons (.object (Properties.nodup_names_set hnodup _ _) ?_ next) hroom houter
      intro property hproperty
      rcases Properties.mem_set hproperty with rfl | hmem
      · exact hvalue
      · exact hvalues property hmem

/-- A scalar is complete, and a container that opens has room and holds nothing yet. -/
theorem fits_startValue (h : startValue Tree.visitor outer token = some q) (houter : FramesFit outer) : q.Fits := by
  cases token with
  | scalar value =>
    rw [startValue_scalar] at h
    obtain rfl := Option.some.inj h
    exact fits_complete ⟨trivial, houter.length_le⟩ houter
  | openArray =>
    obtain ⟨hroom, hq⟩ := Option.ite_none_right_eq_some.1 h
    obtain rfl := Option.some.inj hq
    exact .cons (.array (List.forall_mem_nil _)) hroom houter
  | openObject =>
    obtain ⟨hroom, hq⟩ := Option.ite_none_right_eq_some.1 h
    obtain rfl := Option.some.inj hq
    intro name
    exact .cons (.object (by simp [Properties.names]) (List.forall_mem_nil _) name) hroom houter
  | _ => cases h

/-- The end of an array. -/
theorem fits_array {items : List Tree} (h : FramesFit (.array items :: outer)) :
    (complete Tree.visitor (.array items.reverse) outer).Fits := by
  cases h with
  | cons hframe hroom houter =>
    cases hframe with
    | array hitems =>
      have hreverse : ∀ item ∈ items.reverse, Json.Fits (outer.length + 1) item := by
        simpa using hitems
      refine fits_complete ⟨?_, ?_⟩ houter
      · exact Tree.wellFormedItems_of_mem fun item hmem => (hreverse item hmem).wellFormed
      · have hdepth : Tree.depthItems items.reverse ≤ maxDepth - (outer.length + 1) := by
          apply Tree.depthItems_le
          intro item hmem
          have hle := (hreverse item hmem).depth_le
          omega
        rw [Tree.depth]
        omega

/-- The end of an object. -/
theorem fits_object {properties : Properties Tree} {name : String}
    (h : FramesFit (.object properties name :: outer)) : (complete Tree.visitor (.object properties) outer).Fits := by
  cases h with
  | cons hframe hroom houter =>
    cases hframe with
    | object hnodup hvalues =>
      refine fits_complete ⟨?_, ?_⟩ houter
      · exact ⟨hnodup, Tree.wellFormedProperties_of_mem fun property hmem => (hvalues property hmem).wellFormed⟩
      · have hdepth : Tree.depthProperties properties ≤ maxDepth - (outer.length + 1) := by
          apply Tree.depthProperties_le
          intro property hmem
          have hle := (hvalues property hmem).depth_le
          omega
        rw [Tree.depth]
        omega

/-- One more token. -/
theorem fits_step (hp : p.Fits) (h : step Tree.visitor p token = some q) : q.Fits := by
  unfold step at h
  split at h
  -- one case for each state, with the tokens that it takes
  · exact fits_startValue h hp
  · obtain rfl := Option.some.inj h
    exact fits_array hp
  · exact fits_startValue h hp
  · obtain rfl := Option.some.inj h
    exact hp
  · obtain rfl := Option.some.inj h
    exact fits_array hp
  · obtain rfl := Option.some.inj h
    exact fits_object (hp "")
  · next outer name =>
    obtain rfl := Option.some.inj h
    exact hp name
  · next outer properties name =>
    obtain rfl := Option.some.inj h
    exact hp name
  · obtain rfl := Option.some.inj h
    exact hp
  · obtain rfl := Option.some.inj h
    exact hp
  · obtain rfl := Option.some.inj h
    exact fits_object (hp "")
  · cases h

/-- Any number of tokens. -/
theorem fits_foldlM {tokens : List Token} (hp : p.Fits) (h : tokens.foldlM (step Tree.visitor) p = some q) :
    q.Fits := by
  induction tokens generalizing p with
  | nil =>
    obtain rfl := Option.some.inj h
    exact hp
  | cons token more ih =>
    rw [List.foldlM_cons] at h
    obtain ⟨next, hnext, hmore⟩ := Option.bind_eq_some_iff.1 h
    exact ih (fits_step hp hnext) hmore

end Progress

/-- A value that is read has no two properties of one name in an object, and no more containers inside
each other than may be. -/
theorem fits_of_parse? {text : List Char} {value : Tree} (h : parse? text = some value) : Fits 0 value := by
  obtain ⟨tokens, -, htokens⟩ := Option.bind_eq_some_iff.1 h
  obtain ⟨last, hlast, hresult⟩ := Option.bind_eq_some_iff.1 htokens
  have hfits : last.Fits := Progress.fits_foldlM (p := .atValue []) FramesFit.nil hlast
  cases last with
  | done read =>
    obtain rfl := Option.some.inj hresult
    exact hfits
  | _ => cases hresult

end Json

end PartialResponse
