/-!
# PartialResponse.Selector.Basic — selectors

A selector names one property by the property names met on the way to it from
the root, e.g. `a/b/c`. Its segments are never empty and never hold one of the
characters that the selector language reserves, so a selector can be written
down and read back.
-/

namespace PartialResponse

/-- The characters with a meaning in selector text, which no segment may hold. -/
def isReserved (c : Char) : Bool :=
  c == '/' || c == ',' || c == '(' || c == ')'

/-- A name that selector text can spell: not empty, and without reserved characters. -/
def isSegment (name : String) : Bool :=
  !name.toList.isEmpty && name.toList.all (!isReserved ·)

/-- One step of a selector. -/
structure Segment where
  name : String
  spelled : isSegment name = true
deriving DecidableEq

/-- The segment with the given name, if selector text can spell it. -/
def Segment.ofName? (name : String) : Option Segment :=
  if h : isSegment name = true then some ⟨name, h⟩ else none

/-- A path to one property: the segments above it, then its own. -/
structure Selector where
  parents : List Segment
  leaf : Segment
deriving DecidableEq

namespace Selector

/-- The selector that ends in the last of the given segments; there is none for no segments. -/
def ofSegments? (segments : List Segment) : Option Selector :=
  segments.getLast?.map fun leaf => ⟨segments.dropLast, leaf⟩

/-- The selector with the given names, refused if there are none or one cannot be spelled. -/
def ofNames? (names : List String) : Option Selector :=
  (names.mapM Segment.ofName?).bind ofSegments?

/-- The segments from the root to the property. -/
def segments (s : Selector) : List Segment :=
  s.parents ++ [s.leaf]

/-- The property names from the root to the property. -/
def names (s : Selector) : List String :=
  s.segments.map Segment.name

/-- The number of segments. -/
def size (s : Selector) : Nat :=
  s.segments.length

/-- The text of a list of names: each after the first stands behind a `/`. -/
def joinNames : List String → String
  | [] => ""
  | [name] => name
  | name :: rest => name ++ "/" ++ joinNames rest

/-- The selector as it is written. -/
def text (s : Selector) : String :=
  joinNames s.names

theorem segments_ne_nil (s : Selector) : s.segments ≠ [] := by
  simp [segments]

theorem names_ne_nil (s : Selector) : s.names ≠ [] := by
  simp [names, segments]

theorem isSegment_of_mem_names {s : Selector} {name : String} (h : name ∈ s.names) :
    isSegment name = true := by
  obtain ⟨segment, _, rfl⟩ := List.mem_map.1 h
  exact segment.spelled

/-- Selectors with the same names are the same. -/
theorem eq_of_names_eq {s t : Selector} (h : s.names = t.names) : s = t := by
  have hinj : ∀ {a b : Segment}, a.name = b.name → a = b := by
    rintro ⟨_, _⟩ ⟨_, _⟩ rfl; rfl
  have hs : s.segments = t.segments := (List.map_inj_right fun _ _ => hinj).1 h
  obtain ⟨p, l⟩ := s
  obtain ⟨q, m⟩ := t
  simp only [segments, List.append_singleton_inj] at hs
  simp [hs.1, hs.2]

/-! ## Order

Selectors are ordered segment by segment, each by its code points, and a
selector comes before those that extend it. -/

/-- Lexicographic order on lists of names, a list before its extensions. -/
def namesLe : List String → List String → Bool
  | [], _ => true
  | _ :: _, [] => false
  | a :: as, b :: bs => if a = b then namesLe as bs else decide (a < b)

/-- Whether the first selector comes before the second or is equal to it. -/
def le (s t : Selector) : Bool :=
  namesLe s.names t.names

end Selector

end PartialResponse
