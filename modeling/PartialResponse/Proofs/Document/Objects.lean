import PartialResponse.Proofs.Document.MergeKeys
import PartialResponse.Proofs.Yaml.Meaning
import PartialResponse.Proofs.Yaml.Objects

/-!
# PartialResponse.Proofs.Document.Objects — the objects of YAML texts

The mappings of a text become objects, mapping by mapping. Here stands in which order the
properties of these come, and which property a name has.

The order is the one in which the entries are written, apart from a merge key with two or
more entries behind it. When it is taken out, the last entry of the mapping moves into its
place.

Keys that differ as YAML values may be the same as texts. They are not taken for a repeated
key. The object has one property for them, with the value that comes last.
-/

namespace PartialResponse.Document

open Yaml Yaml.Value

/-! ## The objects of a text -/

/-- Whether every mapping of a document becomes an object in a certain way. The mappings are those that
the nodes of the document stand for. -/
def EveryObject (P : Conversion → Prop) (graph : Except Fault NodeGraph) (tree : Tree) : Prop :=
  ∃ g v, graph = .ok g ∧ g.Means g.root v ∧ v.EveryMapping P tree

theorem everyObject_of_readYamlDocument {P : Conversion → Prop} (hP : ∀ c : Conversion, c.ComesAbout → P c)
    {number : Nat} {graph : Except Fault NodeGraph} {tree : Tree}
    (h : readYamlDocument number graph = .ok tree) :
    EveryObject P graph tree := by
  obtain ⟨g, v, w, rfl, hgraph, hmerged, htree⟩ := exists_of_readYamlDocument h
  have hmerges : MergesWithin v.depth v w := ⟨hmerged, Nat.le_refl _, keysDistinct_ofGraph hgraph⟩
  exact ⟨g, v, rfl, means_ofGraph hgraph, everyMapping_of_mergesWithin hP hmerges htree⟩

theorem readYamlDocuments_of_readYaml {t : List Char} {d : Document} (h : readYaml t = .ok d) :
    readYamlDocuments 1 (NodeGraph.ofText t) = .ok d.values := by
  unfold readYaml at h
  split at h
  · cases h
  · next hnone =>
    -- a text has at least one document
    have hnil := (forall₂_of_readYamlDocuments resolves_of_readYamlDocument hnone).length_eq
    exact absurd (List.length_eq_zero_iff.1 hnil) (ofText_ne_nil t)
  · next hread =>
    obtain rfl := Except.ok.inj h
    exact hread
  · next hread =>
    obtain rfl := Except.ok.inj h
    exact hread

/-- What holds of each object that comes about holds of every mapping of a text. -/
theorem everyObject_of_readYaml {P : Conversion → Prop} (hP : ∀ c : Conversion, c.ComesAbout → P c) {t : List Char}
    {d : Document} (h : readYaml t = .ok d) : List.Forall₂ (EveryObject P) (NodeGraph.ofText t) d.values :=
  forall₂_of_readYamlDocuments (everyObject_of_readYamlDocument hP) (readYamlDocuments_of_readYaml h)

/-- The property names of the value of a text that is an object. -/
def names? (t : List Char) : Option (List String) :=
  match readYaml t with
  | .ok d =>
    match d.values with
    | [.object properties] => some (Properties.names properties)
    | _ => none
  | .error _ => none

theorem exists_of_names? {t : List Char} {names : List String} (h : names? t = some names) :
    ∃ d properties, readYaml t = .ok d ∧ d.values = [.object properties] ∧ Properties.names properties = names := by
  unfold names? at h
  split at h
  · next d hread =>
    split at h
    · next properties hvalues => exact ⟨d, properties, hread, hvalues, Option.some.inj h⟩
    · cases h
  · cases h

/-! ## The order of the properties -/

/-- The objects of a text have their own properties in the order in which they are written, but for the one
that a merge key moves. -/
theorem inOrder_of_readYaml {t : List Char} {d : Document} (h : readYaml t = .ok d) :
    List.Forall₂ (EveryObject InOrder) (NodeGraph.ofText t) d.values :=
  everyObject_of_readYaml (fun _ => inOrder_of_comesAbout) h

/-- A text with a merge key in front of two entries. -/
def mergeKeyFirst : String :=
  "<<:\n  x: 0\na: 1\nb: 2\n"

theorem names?_mergeKeyFirst : names? mergeKeyFirst.toList = some ["b", "a", "x"] := by
  decide +kernel

theorem inOrder_of_readYaml_mergeKeyFirst :
    ∃ d, readYaml mergeKeyFirst.toList = .ok d ∧
      List.Forall₂ (EveryObject InOrder) (NodeGraph.ofText mergeKeyFirst.toList) d.values := by
  obtain ⟨d, -, hread, -, -⟩ := exists_of_names? names?_mergeKeyFirst
  exact ⟨d, hread, inOrder_of_readYaml hread⟩

/-- What is written last comes first here. -/
theorem last_before_first :
    ∃ d properties, readYaml mergeKeyFirst.toList = .ok d ∧ d.values = [.object properties] ∧
      Properties.names properties = ["b", "a", "x"] :=
  exists_of_names? names?_mergeKeyFirst

/-! ## One property for each name -/

/-- The objects of a text have one property for each text of a key. -/
theorem onePerName_of_readYaml {t : List Char} {d : Document} (h : readYaml t = .ok d) :
    List.Forall₂ (EveryObject OnePerName) (NodeGraph.ofText t) d.values :=
  everyObject_of_readYaml (fun _ => onePerName_of_comesAbout) h

/-- A text with a number and a string as keys, both written with one digit. -/
def numberAndString : String :=
  "1: a\n\"1\": b\n"

theorem names?_numberAndString : names? numberAndString.toList = some ["1"] := by
  decide +kernel

theorem onePerName_of_readYaml_numberAndString :
    ∃ d, readYaml numberAndString.toList = .ok d ∧
      List.Forall₂ (EveryObject OnePerName) (NodeGraph.ofText numberAndString.toList) d.values := by
  obtain ⟨d, -, hread, -, -⟩ := exists_of_names? names?_numberAndString
  exact ⟨d, hread, onePerName_of_readYaml hread⟩

/-- Two entries become one property here, where a number that is repeated is a fault. -/
theorem entry_overwritten :
    (∃ d properties, readYaml numberAndString.toList = .ok d ∧ d.values = [.object properties] ∧
      Properties.names properties = ["1"]) ∧
    ∃ fault, readYaml "1: a\n1: b\n".toList = .error fault ∧ fault = .yaml 1 := by
  refine ⟨exists_of_names? names?_numberAndString, ?_⟩
  have hfault : (match readYaml "1: a\n1: b\n".toList with
      | .error fault => decide (fault = .yaml 1)
      | .ok _ => false) = true := by decide +kernel
  split at hfault
  · next fault hread => exact ⟨fault, hread, of_decide_eq_true hfault⟩
  · cases hfault

end PartialResponse.Document
