import PartialResponse.Document.Reader
import PartialResponse.Document.Writer
import PartialResponse.Proofs.Json.Values

/-!
# PartialResponse.Proofs.Document.JsonRoundTrip — written JSON reads back

The JSON text of a value is read as the value, with all strings and numbers as they
were and properties in their order. The configuration decides on the layout only, so
compact text and text of any indentation stand for the same value.

There is a text as long as the indentation fits into one. A configuration that asks for
more has no JSON text for any value (`Config.layout?_eq_none_iff`).
-/

namespace PartialResponse.Document

variable {value : Tree}

/-- A value is written with a line feed behind it. -/
theorem readJson_write (h : Json.Restorable value) (layout : Json.Layout) :
    readJson (Json.write layout 0 value ++ ['\n']) = .ok (single value) := by
  rw [readJson, Json.parse?_write_append h layout (by simp [Json.isSpace])]

theorem text?_single_json (c : Config) (value : Tree) :
    (single value).text? .json c = (c.jsonText? value).map (· ++ "\n") := by
  have hline (layout : Json.Layout) : String.ofList (Json.write layout 0 value ++ ['\n']) =
      Json.text layout value ++ "\n" := by
    rw [String.ofList_append, Json.text]
  simp [text?, Config.jsonText?, Function.comp_def, hline]

/-- **Written JSON reads back.** Every configuration with compact output, or with an indentation that
fits into a text, has a JSON text for a value, and it reads back as the value. So does the text of the
document with that value, which has a line feed behind it. -/
theorem read_text_json (c : Config) (h : Json.Restorable value)
    (hfits : c.compact = true ∨ c.indentSize ≤ Json.maxIndent) :
    ∃ text, c.jsonText? value = some text ∧ read .json text = .ok (single value) ∧
      (single value).text? .json c = some (text ++ "\n") ∧
      read .json (text ++ "\n") = .ok (single value) := by
  obtain ⟨layout, hlayout⟩ := Config.exists_layout hfits
  have hjson : c.jsonText? value = some (Json.text layout value) := by
    rw [Config.jsonText?, hlayout, Option.map_some]
  refine ⟨_, hjson, ?_, ?_, ?_⟩
  · rw [read, Json.text, String.toList_ofList, readJson, Json.parse?_write h]
  · rw [text?_single_json, hjson, Option.map_some]
  · rw [read, Json.text, String.toList_append, String.toList_ofList]
    exact readJson_write h layout

/-- One tenth, as near as floating-point numbers come to it. -/
def tenth : Binary64 :=
  ⟨false, 0x3FB999999999999A, by decide⟩

theorem zero_finite : 0 < 2047 * Binary64.perBinade := by decide

/-- Zero with a sign. -/
def negativeZero : Binary64 :=
  ⟨true, 0, zero_finite⟩

/-- Names that need escapes, empty containers, and numbers at the ends of what numbers can be. -/
def extremes : Tree :=
  .object [
    ("", .array [.array [], .object []]),
    ("\"\\/\x00\n\x7f\u2028😀", .array [.null, .ofBool false, .ofString "\r\t\x1f"]),
    ("a", .array [
      .scalar (.number (.integer 0xFFFFFFFFFFFFFFFF (by decide))),
      .scalar (.number (.integer (-0x8000000000000000) (by decide))),
      .scalar (.number (.float tenth)),
      .scalar (.number (.float negativeZero))])]

theorem restorable_extremes : Json.Restorable extremes := by
  refine ⟨?_, by decide, ?_⟩
  · simp [extremes, Tree.WellFormed, Tree.WellFormedProperties, Tree.WellFormedItems, Properties.names,
      Tree.null, Tree.ofBool, Tree.ofString]
  · intro x hx
    simp only [extremes, Tree.numbers, Tree.propertyNumbers, Tree.itemNumbers, Tree.null, Tree.ofBool,
      Tree.ofString, List.nil_append, List.append_nil, List.cons_append, List.mem_cons, List.not_mem_nil,
      reduceCtorEq, Number.float.injEq, false_or, or_false] at hx
    rcases hx with rfl | rfl <;> decide +kernel

/-- Without any indentation every item and property still has a line of its own. -/
theorem read_text_json_extremes :
    Json.Restorable extremes ∧
      ∃ text, { Config.default with indentSize := 0 }.jsonText? extremes = some text ∧
        read .json text = .ok (single extremes) := by
  obtain ⟨text, hjson, hread, -, -⟩ :=
    read_text_json { Config.default with indentSize := 0 } restorable_extremes (.inr (by decide))
  exact ⟨restorable_extremes, text, hjson, hread⟩

/-- A configuration with an indentation that is too long for a text by one space. -/
def tooWide : Config :=
  { Config.default with indentSize := 0x8000000000000000 }

theorem layout?_tooWide : tooWide.layout? = none := by
  rw [Config.layout?_eq_none_iff]
  decide

theorem restorable_null : Json.Restorable .null where
  wellFormed := trivial
  depth_le := by decide
  floatsReadBack := by
    intro x hx
    simp [Tree.null, Tree.numbers] at hx

/-- Without the limit on the indentation it would not hold: there is no text then, be the value as small
as it may. -/
theorem not_read_text_json_tooWide :
    tooWide.jsonText? .null = none ∧ (single .null).text? .json tooWide = none ∧
      ¬ ∀ (c : Config) (value : Tree), Json.Restorable value →
        ∃ text, c.jsonText? value = some text ∧ read .json text = .ok (single value) := by
  have hnone : tooWide.jsonText? .null = none := by
    rw [Config.jsonText?, layout?_tooWide, Option.map_none]
  refine ⟨hnone, ?_, fun hall => ?_⟩
  · rw [text?_single_json, hnone, Option.map_none]
  · obtain ⟨text, hsome, -⟩ := hall tooWide .null restorable_null
    rw [hnone] at hsome
    contradiction

end PartialResponse.Document
