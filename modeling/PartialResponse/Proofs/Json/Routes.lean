import PartialResponse.Proofs.Json.Bounds
import PartialResponse.Proofs.Json.Reading

/-!
# PartialResponse.Proofs.Json.Routes — all ways from JSON to trees and back agree

A tree can be read from a text, or made from the value that is read from the text, at
once or by visiting its parts. These are three routes to the same tree, and from the
tree a route back leads to the value. It does not matter which of the two is written.
-/

namespace PartialResponse.Json

/-- Visiting a value that has been read gives the tree of the value. -/
theorem Value.decode_of_parse? {text : List Char} {v : Value} (h : Value.parse? text = some v) :
    v.decode = .ok v.toTree := by
  have hread : Json.parse? text = some v.toTree := by rw [parse?_eq_map_toTree, h, Option.map_some]
  have hvisited := decode_ofTree v.toTree
  rwa [ofTree_toTree, settle_of_wellFormed (fits_of_parse? hread).wellFormed] at hvisited

/-- In an object that is settled, names stand where they are met first, and values are those that are
met last. -/
theorem exists_settle_object (properties : Properties Tree) :
    ∃ settled, settle (.object properties) = .object settled ∧
      Properties.names settled = (Properties.names properties).eraseDups ∧
      ∀ name, Properties.get? settled name =
        (Properties.get? properties.reverse name).map settle := by
  refine ⟨_, settle_object properties, ?_, ?_⟩
  · simp
  · intro name
    have hreversed : (properties.mapValues settle).reverse =
        Properties.mapValues settle properties.reverse := List.map_reverse.symm
    simp [hreversed]

/-- **All routes agree.** A text is read as a tree just if it is read as a value. Then the tree is that
of the value, also if it is built by visiting the value, and the value is that of the tree; both have
the same text in every layout. A tree can be made a value and back without a change. The tokens of
the text are those of a tree that is settled when it is read: an object that repeats a name keeps its
first place and its last value, at any depth, and nothing else changes. -/
theorem routes_agree (text : List Char) :
    ((∃ t, parse? text = some t) ↔ ∃ v, Value.parse? text = some v) ∧
    (∀ v, Value.parse? text = some v →
      parse? text = some v.toTree ∧ v.decode = .ok v.toTree ∧ Value.ofTree v.toTree = v ∧
      compactText v.toTree = v.compactText ∧
      (∀ layout level, write layout level v.toTree = v.writeIn layout level) ∧
      ∃ written, Token.ofText? text = some (tokensOf written) ∧ settle written = v.toTree) ∧
    (∀ t : Tree, (Value.ofTree t).toTree = t ∧
      (t.WellFormed → (Value.ofTree t).decode = .ok t)) ∧
    (∀ s, settle (.scalar s) = .scalar s) ∧
    (∀ items, settle (.array items) = .array (items.map settle)) ∧
    ∀ properties, ∃ settled, settle (.object properties) = .object settled ∧
      Properties.names settled = (Properties.names properties).eraseDups ∧
      ∀ name, Properties.get? settled name =
        (Properties.get? properties.reverse name).map settle := by
  have hread := Value.parse?_eq_map_toTree text
  refine ⟨?_, ?_, ?_, settle_scalar, settle_array, exists_settle_object⟩
  · rw [hread]
    constructor
    · rintro ⟨t, hmade⟩
      obtain ⟨v, hparsed, -⟩ := Option.map_eq_some_iff.mp hmade
      exact ⟨v, hparsed⟩
    · rintro ⟨v, hparsed⟩
      exact ⟨v.toTree, by rw [hparsed, Option.map_some]⟩
  · intro v hparsed
    -- the two writers agree on trees, and the value is that of its tree
    have hsame : ∀ layout level, write layout level v.toTree = v.writeIn layout level := by
      intro layout level
      rw [← Value.writeIn_ofTree, Value.ofTree_toTree]
    have hmade : parse? text = some v.toTree := by rw [hread, hparsed, Option.map_some]
    obtain ⟨written, hlexed, -, hsettled⟩ := parse?_eq_some_iff.mp hmade
    refine ⟨hmade, Value.decode_of_parse? hparsed, Value.ofTree_toTree v, ?_, hsame,
      written, hlexed, hsettled⟩
    rw [compactText, Json.text, hsame, Value.writeIn_compact, Value.compactText]
  · exact fun t => ⟨Value.toTree_ofTree t, fun hdistinct => by
      rw [Value.decode_ofTree, settle_of_wellFormed hdistinct]⟩

/-- A text that repeats names and has numbers of every kind. -/
def repetitive : List Char :=
  ("\x7b\"a\":1,\"b\":[18446744073709551615,-9223372036854775808,1.0]," ++
    "\"a\":\x7b\"x\":0,\"x\":-0\x7d\x7d").toList

/-- The text of what it is read as. -/
def settledText : List Char :=
  ("\x7b\"a\":\x7b\"x\":-0.0\x7d," ++
    "\"b\":[18446744073709551615,-9223372036854775808,1.0]\x7d").toList

theorem routes_agree_repetitive :
    ∃ v, Value.parse? repetitive = some v ∧ v.write = settledText ∧
      parse? repetitive = some v.toTree ∧ v.decode = .ok v.toTree ∧ Value.ofTree v.toTree = v ∧
      compactText v.toTree = v.compactText := by
  have hwritten : (Value.parse? repetitive).map Value.write = some settledText := by decide +kernel
  obtain ⟨v, hparsed, htext⟩ := Option.map_eq_some_iff.mp hwritten
  obtain ⟨hread, hvisited, hback, hsame, -⟩ := (routes_agree repetitive).2.1 v hparsed
  exact ⟨v, hparsed, htext, hread, hvisited, hback, hsame⟩

end PartialResponse.Json
