import PartialResponse.Document.Reader
import PartialResponse.Proofs.Yaml.Values

/-!
# PartialResponse.Proofs.Document.YamlRoundTrip — written YAML reads back

The YAML text of a document is read as the document that was written, with all
strings, numbers and names as they were and properties in their order.

The exception is a property named `<<`. It is written as any other and read as a
merge key, which is what the reader takes it for in every text.
-/

namespace PartialResponse.Document

open Yaml

/-- What is read for a value depends on nothing but how its merge keys are followed. -/
theorem readYamlDocument_ofTree {value : Tree} (h : Restorable Value.maxDepth value) (number : Nat) :
    readYamlDocument number (.ok (NodeGraph.ofTree value)) =
      match (valueOf value).merged? with
      | none => .error (.yamlMerge number)
      | some merged => merged.toTree.mapError .yamlValue := by
  have hgraph : (Except.ok (NodeGraph.ofTree value)).bind Value.ofGraph = .ok (valueOf value) :=
    Value.ofGraph_ofTree h
  rw [readYamlDocument, hgraph]
  dsimp only
  cases (valueOf value).merged? with
  | none => rfl
  | some merged =>
    dsimp only
    cases merged.toTree <;> rfl

/-- Without a merge key nothing is followed, and the value comes back. -/
theorem readYamlDocument_restores {value : Tree} (h : Restorable Value.maxDepth value)
    (hnames : "<<" ∉ value.allNames) (number : Nat) :
    readYamlDocument number (.ok (NodeGraph.ofTree value)) = .ok value := by
  -- no mapping has a merge key
  have hmerged : (valueOf value).merged? = some (valueOf value) := Value.mergeWithin?_valueOf hnames _
  rw [readYamlDocument_ofTree h, hmerged]
  dsimp only
  rw [Value.toTree_valueOf h]
  rfl

/-- The same of each document; their numbers matter only to errors. -/
theorem readYamlDocuments_restores {values : List Tree}
    (h : ∀ value ∈ values, Restorable Value.maxDepth value ∧ "<<" ∉ value.allNames) (number : Nat) :
    readYamlDocuments number (values.map fun value => .ok (NodeGraph.ofTree value)) = .ok values := by
  induction values generalizing number with
  | nil => rfl
  | cons value more ih =>
    obtain ⟨⟨hvalue, hnames⟩, hmore⟩ := List.forall_mem_cons.1 h
    rw [List.map_cons, readYamlDocuments, readYamlDocument_restores hvalue hnames, ih hmore]
    rfl

/-- A text of YAML documents with all its values. -/
theorem readYaml_writeYaml {value : Tree} {more : List Tree}
    (h : ∀ x ∈ value :: more, Restorable Value.maxDepth x ∧ "<<" ∉ x.allNames) :
    readYaml (writeYaml (value :: more)) =
      .ok (match more with
        | [] => single value
        | _ => stream (value :: more)) := by
  have hread : readYamlDocuments 1 (NodeGraph.ofText (writeYaml (value :: more))) = .ok (value :: more) := by
    rw [NodeGraph.ofText_writeYaml]
    exact readYamlDocuments_restores h 1
  unfold readYaml
  rw [hread]
  cases more <;> rfl

/-- There is a YAML text whatever is configured, since nothing of the layout is. -/
theorem text?_yaml (c : Config) (d : Document) :
    d.text? .yaml c = some (.ofList (writeYaml d.values)) := by
  rw [text?, write?_yaml, Option.map_some]

/-- A text is read by its characters. -/
theorem read_yaml_ofList (t : List Char) : read .yaml (.ofList t) = readYaml t := by
  rw [read, String.toList_ofList]

/-- **Written YAML reads back.** Whatever is configured, a document has a YAML text, and it reads back as
the document, be it a single value or a stream of more than one. -/
theorem read_text_yaml {d : Document} (c : Config)
    (hmany : ∀ values, d = .stream values → 2 ≤ values.length)
    (h : ∀ value ∈ d.values, Restorable Value.maxDepth value ∧ "<<" ∉ value.allNames) :
    ∃ text, d.text? .yaml c = some text ∧ read .yaml text = .ok d := by
  refine ⟨_, text?_yaml c d, ?_⟩
  rw [read_yaml_ofList]
  cases d with
  | single value => exact readYaml_writeYaml h
  | stream values =>
    match values, hmany values rfl with
    | value :: next :: more, _ => exact readYaml_writeYaml h

/-- Names and strings that look like something else, in two documents. -/
def lookalikes : Document :=
  .stream [
    .object [("true", .ofString "null"), ("- a: b #c", .array [.ofString "---", .ofString " 1\n\n", .array []]),
      ("", .object [("0x1f", .scalar (.number (.integer (-7) (by decide)))), ("a\tb", .ofString "'\"")])],
    .ofString "<<"]

/-- They all come back. -/
theorem read_text_yaml_lookalikes :
    (∀ value ∈ lookalikes.values, Restorable Value.maxDepth value ∧ "<<" ∉ value.allNames) ∧
      ∃ text, lookalikes.text? .yaml Config.default = some text ∧
        read .yaml text = .ok lookalikes := by
  have h : ∀ value ∈ lookalikes.values, Restorable Value.maxDepth value ∧ "<<" ∉ value.allNames := by
    simp only [lookalikes, values, List.forall_mem_cons]
    refine ⟨⟨⟨?_, by decide, ?_⟩, by decide⟩, ⟨⟨?_, by decide, ?_⟩, by decide⟩, by simp⟩
    · simp [Tree.WellFormed, Tree.WellFormedProperties, Tree.WellFormedItems, Properties.names, Tree.ofString]
    · simp [Tree.numbers, Tree.propertyNumbers, Tree.itemNumbers, Tree.ofString, readsBack_integer]
    · simp [Tree.WellFormed, Tree.ofString]
    · simp [Tree.numbers, Tree.ofString]
  have hmany : ∀ values, lookalikes = .stream values → 2 ≤ values.length := by
    rintro values ⟨⟩
    decide
  exact ⟨h, read_text_yaml Config.default hmany h⟩

/-- A number as a value. -/
def digit (n : Fin 10) : Tree :=
  .scalar (.number (.integer n (by omega)))

/-- An object with a property named `<<`, which is an object itself. -/
def withMergeKey : Tree :=
  .object [("<<", .object [("a", digit 1)]), ("b", digit 2)]

/-- Without the exception for names, it would not hold: the property named `<<` is gone, and those of its
value stand in its place. -/
theorem not_read_text_yaml_withMergeKey :
    ¬ ∀ (d : Document) (c : Config), (∀ values, d = .stream values → 2 ≤ values.length) →
      (∀ value ∈ d.values, Restorable Value.maxDepth value) →
      ∃ text, d.text? .yaml c = some text ∧ read .yaml text = .ok d := by
  intro hall
  have hrestorable : Restorable Value.maxDepth withMergeKey := by
    refine ⟨?_, by decide, ?_⟩
    · simp [withMergeKey, digit, Tree.WellFormed, Tree.WellFormedProperties, Properties.names]
    · simp [withMergeKey, digit, Tree.numbers, Tree.propertyNumbers, readsBack_integer]
  have hdocument : readYamlDocument 1 (.ok (NodeGraph.ofTree withMergeKey)) =
      .ok (.object [("b", digit 2), ("a", digit 1)]) := by
    rw [readYamlDocument_ofTree hrestorable]
    rfl
  have hdocuments : readYamlDocuments 1 (NodeGraph.ofText (writeYaml [withMergeKey])) =
      .ok [.object [("b", digit 2), ("a", digit 1)]] := by
    rw [NodeGraph.ofText_writeYaml, List.map_singleton, readYamlDocuments, hdocument]
    rfl
  obtain ⟨text, htext, hread⟩ :=
    hall (.single withMergeKey) Config.default (by simp) (by simpa [values] using hrestorable)
  rw [text?_yaml] at htext
  obtain rfl := Option.some.inj htext
  rw [read_yaml_ofList, values] at hread
  unfold readYaml at hread
  rw [hdocuments] at hread
  simp [withMergeKey] at hread

end PartialResponse.Document
