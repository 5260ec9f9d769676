import PartialResponse.Document.Reader
import PartialResponse.Proofs.Yaml.MergeKeys

/-!
# PartialResponse.Proofs.Document.MergeKeys — merge keys of YAML texts

Every YAML document that is read is what its nodes stand for with the merge keys
followed once, mapping by mapping from the outside to the inside.

Once is not always enough. A mapping that is taken over from may have a merge key
itself; that key comes along as it is, and becomes a property.
-/

namespace PartialResponse.Document

open Yaml

/-- Whether a tree is what a document stands for with its merge keys followed. -/
def Resolves (graph : Except Fault NodeGraph) (tree : Tree) : Prop :=
  ∃ v w, graph.bind Value.ofGraph = .ok v ∧ v.MergesTo w ∧ w.toTree = .ok tree

/-- What one document goes through. -/
theorem exists_of_readYamlDocument {number : Nat} {graph : Except Fault NodeGraph} {tree : Tree}
    (h : readYamlDocument number graph = .ok tree) :
    ∃ g v w, graph = .ok g ∧ Value.ofGraph g = .ok v ∧ v.merged? = some w ∧ w.toTree = .ok tree := by
  rw [readYamlDocument] at h
  split at h
  · cases h
  · next v hgraph =>
    split at h
    · cases h
    · next w hmerged =>
      split at h
      · cases h
      · next hw =>
        obtain rfl := Except.ok.inj h
        cases graph with
        | error fault => cases hgraph
        | ok g => exact ⟨g, v, w, rfl, hgraph, hmerged, hw⟩

theorem forall₂_of_readYamlDocuments {R : Except Fault NodeGraph → Tree → Prop}
    (hR : ∀ {number graph tree}, readYamlDocument number graph = .ok tree → R graph tree) {number : Nat}
    {graphs : List (Except Fault NodeGraph)} {trees : List Tree}
    (h : readYamlDocuments number graphs = .ok trees) : List.Forall₂ R graphs trees := by
  induction graphs generalizing number trees with
  | nil =>
    obtain rfl := Except.ok.inj h
    exact .nil
  | cons graph more ih =>
    rw [readYamlDocuments] at h
    split at h
    · cases h
    · next tree hfirst =>
      -- one faulty document fails them all
      cases hmore : readYamlDocuments (number + 1) more with
      | error fault =>
        rw [hmore] at h
        cases h
      | ok rest =>
        rw [hmore] at h
        obtain rfl : tree :: rest = trees := Except.ok.inj h
        exact .cons (hR hfirst) (ih hmore)

theorem resolves_of_readYamlDocument {number : Nat} {graph : Except Fault NodeGraph} {tree : Tree}
    (h : readYamlDocument number graph = .ok tree) : Resolves graph tree := by
  obtain ⟨g, v, w, rfl, hgraph, hmerged, hw⟩ := exists_of_readYamlDocument h
  -- the value comes from nodes, so its keys are there once
  have hkeys := Value.keysDistinct_ofGraph hgraph
  exact ⟨v, w, hgraph, Value.mergesTo_of_mergesWithin ⟨hmerged, Nat.le_refl _, hkeys⟩, hw⟩

theorem resolves_of_readYamlDocuments {number : Nat} {graphs : List (Except Fault NodeGraph)} {trees : List Tree}
    (h : readYamlDocuments number graphs = .ok trees) : List.Forall₂ Resolves graphs trees :=
  forall₂_of_readYamlDocuments resolves_of_readYamlDocument h

theorem ofText_ne_nil (t : List Char) : NodeGraph.ofText t ≠ [] := by
  unfold NodeGraph.ofText
  generalize NodeGraph.readAll _ _ _ = documents
  cases documents <;> simp

/-- The values of a YAML text that is read are those of its documents, with merge keys followed. -/
theorem resolves_of_readYaml {t : List Char} {d : Document} (h : readYaml t = .ok d) :
    List.Forall₂ Resolves (NodeGraph.ofText t) d.values := by
  have hne := ofText_ne_nil t
  unfold readYaml at h
  generalize NodeGraph.ofText t = graphs at h hne ⊢
  cases hread : readYamlDocuments 1 graphs with
  | error fault =>
    rw [hread] at h
    cases h
  | ok trees =>
    have hall := resolves_of_readYamlDocuments hread
    rw [hread] at h
    match trees, hall, h with
    | [], .nil, _ => exact absurd rfl hne
    | [tree], hall, h =>
      obtain rfl := Except.ok.inj h
      exact hall
    | first :: second :: more, hall, h =>
      obtain rfl := Except.ok.inj h
      exact hall

/-- A mapping that takes over from one that takes over from a third one. -/
def chained : String :=
  "a: &a\n  z: 3\nb: &b\n  <<: *a\n  y: 2\nc:\n  <<: *b\n  x: 1\n"

theorem exists_readYaml_chained : ∃ d, readYaml chained.toList = .ok d := by
  have hok : (readYaml chained.toList).isOk = true := by decide +kernel
  cases hread : readYaml chained.toList with
  | error fault =>
    rw [hread] at hok
    cases hok
  | ok d => exact ⟨d, rfl⟩

theorem resolves_of_readYaml_chained :
    ∃ d, readYaml chained.toList = .ok d ∧
      List.Forall₂ Resolves (NodeGraph.ofText chained.toList) d.values := by
  obtain ⟨d, hread⟩ := exists_readYaml_chained
  exact ⟨d, hread, resolves_of_readYaml hread⟩

/-- What the third mapping has does not arrive in the first one. There stands the merge key of the second
one instead. -/
theorem mergeKey_left_chained :
    ∃ d t c, readYaml chained.toList = .ok d ∧ d.values.head? = some t ∧ t.get? "c" = some c ∧
      c.get? "z" = none ∧ ((c.get? "<<").bind (·.get? "z")).isSome = true := by
  obtain ⟨d, hread⟩ := exists_readYaml_chained
  have hleft : (((readYaml chained.toList).toOption.bind (·.values.head?)).bind (·.get? "c")).any
      (fun c => (c.get? "z").isNone && ((c.get? "<<").bind (·.get? "z")).isSome) = true := by
    decide +kernel
  obtain ⟨c, hfound, hkeys⟩ := (Option.any_eq_true _ _).mp hleft
  obtain ⟨t, hfirst, hc⟩ := Option.bind_eq_some_iff.1 hfound
  rw [hread] at hfirst
  rw [Bool.and_eq_true, Option.isNone_iff_eq_none] at hkeys
  exact ⟨d, t, c, hread, hfirst, hc, hkeys⟩

end PartialResponse.Document
