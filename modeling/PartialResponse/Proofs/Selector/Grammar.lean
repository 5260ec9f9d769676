import PartialResponse.Selector.Selection
import Mathlib.Data.List.Basic

/-!
# PartialResponse.Proofs.Selector.Grammar — the grammar of selector text

The grammar as a type of derivations, one constructor for each way to apply a
rule:

    terms   := term (',' term)*
    term    := segment ('/' segment)* group?
    group   := '(' terms ')'
    segment := one or more characters other than '/', ',', '(' and ')'

A derivation has a text and an expansion: the selectors it stands for, each with
the segments of the groups around it in front.
-/

namespace PartialResponse

namespace Selector

/-- The selector with the given segments. -/
def ofPath (first : Segment) (more : List Segment) : Selector :=
  ⟨(first :: more).dropLast, (first :: more).getLast (List.cons_ne_nil first more)⟩

/-- The selector with more segments in front. -/
def under (outer : List Segment) (s : Selector) : Selector :=
  ⟨outer ++ s.parents, s.leaf⟩

@[simp] theorem segments_ofPath (first : Segment) (more : List Segment) :
    (ofPath first more).segments = first :: more :=
  List.dropLast_append_getLast (List.cons_ne_nil first more)

@[simp] theorem segments_under (outer : List Segment) (s : Selector) :
    (s.under outer).segments = outer ++ s.segments := by
  simp [under, segments]

/-- Selectors with the same segments are the same. -/
theorem eq_of_segments_eq {s t : Selector} (h : s.segments = t.segments) : s = t :=
  eq_of_names_eq (congrArg (List.map Segment.name) h)

theorem under_under (outer inner : List Segment) (s : Selector) :
    (s.under inner).under outer = s.under (outer ++ inner) := by
  apply eq_of_segments_eq
  simp

end Selector

namespace Grammar

mutual

/-- A selector as it is written. -/
inductive Term where
  | path (first : Segment) (more : List Segment)
  | group (first : Segment) (more : List Segment) (contents : Terms)

/-- A list of selectors as it is written. -/
inductive Terms where
  | one (term : Term)
  | more (term : Term) (rest : Terms)

end

/-- Segments with slashes between them. -/
def pathText (first : Segment) (more : List Segment) : List Char :=
  first.name.toList ++ more.flatMap fun segment => '/' :: segment.name.toList

mutual

/-- The text of a selector. -/
def Term.text : Term → List Char
  | .path first more => pathText first more
  | .group first more contents => pathText first more ++ '(' :: (contents.text ++ [')'])

/-- The text of a list of selectors. -/
def Terms.text : Terms → List Char
  | .one term => term.text
  | .more term rest => term.text ++ ',' :: rest.text

end

mutual

/-- The selectors a written selector stands for, from left to right: a group stands for what it
holds, under the segments in front of it. -/
def Term.expand : Term → List Selector
  | .path first more => [.ofPath first more]
  | .group first more contents => contents.expand.map (Selector.under (first :: more))

/-- The selectors a written list stands for, from left to right. -/
def Terms.expand : Terms → List Selector
  | .one term => term.expand
  | .more term rest => term.expand ++ rest.expand

end

/-- The written selector with one more segment in front. -/
def Term.behind (segment : Segment) : Term → Term
  | .path first more => .path segment (first :: more)
  | .group first more contents => .group segment (first :: more) contents

/-- The written list whose first selector has one more segment in front. -/
def Terms.behind (segment : Segment) : Terms → Terms
  | .one term => .one (term.behind segment)
  | .more term rest => .more (term.behind segment) rest

theorem pathText_cons (first next : Segment) (more : List Segment) :
    pathText first (next :: more) = first.name.toList ++ '/' :: pathText next more := by
  simp [pathText]

theorem Term.text_behind (segment : Segment) (term : Term) :
    (term.behind segment).text = segment.name.toList ++ '/' :: term.text := by
  cases term <;> simp [Term.behind, Term.text, pathText_cons]

theorem Terms.text_behind (segment : Segment) (terms : Terms) :
    (terms.behind segment).text = segment.name.toList ++ '/' :: terms.text := by
  cases terms <;> simp [Terms.behind, Terms.text, Term.text_behind]

mutual

/-- Every written selector stands for at least one. -/
theorem Term.expand_ne_nil : (term : Term) → term.expand ≠ []
  | .path _ _ => by simp [Term.expand]
  | .group _ _ contents => by simpa [Term.expand] using Terms.expand_ne_nil contents

theorem Terms.expand_ne_nil : (terms : Terms) → terms.expand ≠ []
  | .one term => Term.expand_ne_nil term
  | .more term _ => by simp [Terms.expand, Term.expand_ne_nil term]

end

end Grammar

end PartialResponse
