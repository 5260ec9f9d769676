import Mathlib.Data.List.Induction
import PartialResponse.Proofs.Selector.Writing

/-!
# PartialResponse.Proofs.Selector.Editing — selections that are built step by step

A selection can start anew, be read from a text, get one selector more or those of a
text, or be collected. Each of these operations comes down to inserting some selectors
one after the other, into the selection or into the empty one (`Inserts.perform_eq`).
So behind any number of operations a selection has the selectors that have been
inserted since it was last emptied, each at the place where it was first inserted
(`Inserted.performAll_eq`), and whatever holds of every selection holds of it: it has
no selector twice, all its names can be spelled, and it reads back when it is written.
-/

namespace PartialResponse.Selection

open Grammar

/-! ## Operations -/

/-- Where a selector comes from. -/
inductive Origin where
  /-- It has the given names, if they can be spelled. -/
  | names (path : List String)
  /-- It is one of those that a text stands for. -/
  | written (text : String) (index : Nat)

/-- The selector, if there is one. -/
def Origin.selector? : Origin → Option Selector
  | names path => Selector.ofNames? path
  | written text index =>
    match parse text with
    | .ok s => s.selectors[index]?
    | .error _ => none

/-- An operation on a selection. -/
inductive Edit where
  /-- Starts anew. -/
  | clear
  /-- Starts anew with the selectors of a text. -/
  | parse (text : String)
  | insert (origin : Origin)
  /-- Adds the selectors of a text. -/
  | extend (text : String)
  /-- Starts anew with some selectors. -/
  | collect (origins : List Origin)

/-- What an operation answers. -/
inductive Answer where
  | done
  /-- Whether the selector has not been there yet. -/
  | inserted (isNew : Bool)
  /-- There is no such selector. -/
  | refused
  | malformed (cause : SelectorError)
deriving DecidableEq

/-- What an operation answers, and the selection behind it. -/
def Edit.perform (s : Selection) : Edit → Answer × Selection
  | clear => (.done, empty)
  | parse text =>
    match Selection.parse text with
    | .ok t => (.done, t)
    | .error cause => (.malformed cause, s)
  | insert origin =>
    match origin.selector? with
    | some x => (.inserted (!s.contains x), s.insert x)
    | none => (.refused, s)
  | extend text =>
    match Selection.parse text with
    | .ok t => (.done, s.union t)
    | .error cause => (.malformed cause, s)
  | collect origins => (.done, ofList (origins.filterMap Origin.selector?))

/-- The selection behind some operations, of which the first meets the empty one. -/
def performAll (edits : List Edit) : Selection :=
  edits.foldl (fun s edit => (edit.perform s).2) empty

/-- The last operation meets what the others leave. -/
theorem performAll_concat (edits : List Edit) (edit : Edit) :
    performAll (edits ++ [edit]) = (edit.perform (performAll edits)).2 := by
  simp [performAll]

/-! ## What is inserted -/

/-- The selectors that a text puts down, from left to right, be it for the first time or not. -/
inductive Puts : String → List Selector → Prop
  | nothing : Puts "" []
  | terms {text : String} (terms : Terms) : terms.text = text.toList → Puts text terms.expand

/-- The selectors that an operation inserts one after the other, and whether it empties the selection
first. A malformed text inserts nothing. -/
inductive Inserts : Edit → Bool → List Selector → Prop
  | clear : Inserts .clear true []
  | parse {text : String} {xs : List Selector} : Puts text xs → Inserts (.parse text) true xs
  | parse_malformed {text : String} : (∀ xs, ¬Puts text xs) → Inserts (.parse text) false []
  | insert (origin : Origin) : Inserts (.insert origin) false origin.selector?.toList
  | extend {text : String} {xs : List Selector} : Puts text xs → Inserts (.extend text) false xs
  | extend_malformed {text : String} : (∀ xs, ¬Puts text xs) → Inserts (.extend text) false []
  | collect (origins : List Origin) :
    Inserts (.collect origins) true (origins.filterMap Origin.selector?)

/-- The selectors that operations have inserted since the selection was last empty, one after the
other. -/
inductive Inserted : List Edit → List Selector → Prop
  | start : Inserted [] []
  | anew {edits : List Edit} {edit : Edit} {xs ys : List Selector} :
    Inserted edits xs → Inserts edit true ys → Inserted (edits ++ [edit]) ys
  | more {edits : List Edit} {edit : Edit} {xs ys : List Selector} :
    Inserted edits xs → Inserts edit false ys → Inserted (edits ++ [edit]) (xs ++ ys)

/-! ## Insertions one after the other -/

variable {s t : Selection} {x : Selector} {text : String}

/-- Inserting a selector again changes nothing. -/
theorem insert_of_mem (h : x ∈ s.selectors) : s.insert x = s := by
  rw [insert, dif_pos h]

/-- A selector that the second selection gets comes behind all others of the union. -/
theorem union_insert (s t : Selection) (x : Selector) :
    s.union (t.insert x) = (s.union t).insert x := by
  by_cases h : x ∈ t.selectors
  · rw [insert_of_mem h, insert_of_mem (mem_union.mpr (Or.inr h))]
  · -- the selector is the last one that the union inserts
    have hbehind : (t.insert x).selectors = t.selectors ++ [x] := by
      rw [selectors_insert, if_neg h]
    rw [union, hbehind, insertAll_append]
    rfl

/-- The same of selectors one after the other. -/
theorem union_insertAll (s t : Selection) (xs : List Selector) :
    s.union (t.insertAll xs) = (s.union t).insertAll xs := by
  induction xs generalizing t with
  | nil => rfl
  | cons x xs ih =>
    have hrest := ih (t.insert x)
    rw [union_insert] at hrest
    exact hrest

/-- Adding the selectors of a list is adding them one after the other. -/
theorem union_ofList (s : Selection) (xs : List Selector) : s.union (ofList xs) = s.insertAll xs :=
  s.union_insertAll empty xs

/-! ## Texts -/

/-- A text is read as the selectors that it puts down. -/
theorem Puts.parse_eq {xs : List Selector} (h : Puts text xs) : parse text = .ok (ofList xs) := by
  cases h with
  | nothing => rfl
  | terms terms hwritten => exact parse_terms hwritten

/-- A text that is read puts selectors down. -/
theorem exists_puts (h : parse text = .ok s) : ∃ xs, Puts text xs := by
  by_cases hblank : text = ""
  · subst hblank
    exact ⟨[], .nothing⟩
  · rcases exists_terms_of_parse h hblank with ⟨terms, hwritten⟩
    exact ⟨terms.expand, .terms terms hwritten⟩

/-- A text that puts nothing down, not even no selectors, is malformed. -/
theorem exists_error_of_not_puts (h : ∀ xs, ¬Puts text xs) : ∃ cause, parse text = .error cause := by
  cases hparsed : parse text with
  | error cause => exact ⟨cause, rfl⟩
  | ok s =>
    rcases exists_puts hparsed with ⟨xs, hputs⟩
    exact absurd hputs (h xs)

/-! ## One operation, and all -/

/-- The step lemma: what an operation comes down to. -/
theorem Inserts.perform_eq {edit : Edit} {anew : Bool} {xs : List Selector}
    (h : Inserts edit anew xs) (s : Selection) :
    (edit.perform s).2 = (if anew then empty else s).insertAll xs := by
  cases h with
  | clear => rfl
  | parse hputs =>
    simp only [Edit.perform, hputs.parse_eq]
    rfl
  | parse_malformed hmalformed =>
    -- a malformed text leaves the selection as it is
    rcases exists_error_of_not_puts hmalformed with ⟨cause, hfailed⟩
    simp only [Edit.perform, hfailed]
    rfl
  | insert origin =>
    cases hmade : origin.selector? with
    | none =>
      simp only [Edit.perform, hmade]
      rfl
    | some x =>
      simp only [Edit.perform, hmade]
      rfl
  | extend hputs =>
    simp only [Edit.perform, hputs.parse_eq]
    exact s.union_ofList xs
  | extend_malformed hmalformed =>
    rcases exists_error_of_not_puts hmalformed with ⟨cause, hfailed⟩
    simp only [Edit.perform, hfailed]
    rfl
  | collect origins => rfl

/-- The run lemma, by induction on the operations. -/
theorem Inserted.performAll_eq {edits : List Edit} {inserted : List Selector}
    (h : Inserted edits inserted) : performAll edits = ofList inserted := by
  induction h with
  | start => rfl
  | anew hbefore hinserts ih =>
    rw [performAll_concat, hinserts.perform_eq]
    rfl
  | more hbefore hinserts ih =>
    rw [performAll_concat, hinserts.perform_eq, ih, if_neg Bool.false_ne_true, ofList, ofList,
      insertAll_append]

/-- Every operation comes down to some insertions. -/
theorem exists_inserts (edit : Edit) : ∃ anew xs, Inserts edit anew xs := by
  cases edit with
  | clear => exact ⟨true, [], .clear⟩
  | parse text =>
    by_cases hwellFormed : ∃ xs, Puts text xs
    · rcases hwellFormed with ⟨xs, hputs⟩
      exact ⟨true, xs, .parse hputs⟩
    · exact ⟨false, [], .parse_malformed (not_exists.mp hwellFormed)⟩
  | insert origin => exact ⟨false, _, .insert origin⟩
  | extend text =>
    by_cases hwellFormed : ∃ xs, Puts text xs
    · rcases hwellFormed with ⟨xs, hputs⟩
      exact ⟨false, xs, .extend hputs⟩
    · exact ⟨false, [], .extend_malformed (not_exists.mp hwellFormed)⟩
  | collect origins => exact ⟨true, _, .collect origins⟩

/-- Some selectors have been inserted. By induction on the operations, the last one first. -/
theorem exists_inserted (edits : List Edit) : ∃ inserted, Inserted edits inserted := by
  induction edits using List.reverseRecOn with
  | nil => exact ⟨[], .start⟩
  | append_singleton edits edit ih =>
    rcases ih with ⟨xs, hbefore⟩
    rcases exists_inserts edit with ⟨anew, ys, hinserts⟩
    -- an operation that empties the selection makes what was inserted before it void
    cases anew with
    | true => exact ⟨ys, .anew hbefore hinserts⟩
    | false => exact ⟨xs ++ ys, .more hbefore hinserts⟩

/-! ## Selections that can be built -/

/-- A name that can be spelled is not empty, and none of its characters is reserved. -/
theorem spelled_of_mem_names {name : String} (h : name ∈ x.names) :
    name ≠ "" ∧ ∀ c ∈ name.toList, c ∉ ['/', ',', '(', ')'] := by
  have hspelled := Selector.isSegment_of_mem_names h
  simp only [isSegment, Bool.and_eq_true, List.all_eq_true] at hspelled
  rcases hspelled with ⟨hnonempty, hplain⟩
  constructor
  · rintro rfl
    cases hnonempty
  · intro c hmem hreserved
    have hfree := hplain c hmem
    simp only [List.mem_cons, List.not_mem_nil, or_false] at hreserved
    rcases hreserved with rfl | rfl | rfl | rfl <;> cases hfree

/-- **Selections that can be built are well formed and read back.** Behind any operations, a selection
has the selectors that have been inserted since it was last emptied, each once and where it was
inserted first. Inserting tells whether a selector has not been inserted yet, and a malformed text
changes nothing. No selector is without names, and all names can be spelled. What is written for the
selection is read as the selection, with its order; it is the empty text only for the empty
selection, and it is not written for another one. -/
theorem performAll_wellFormed (edits : List Edit) :
    let s := performAll edits
    ((∃ inserted, Inserted edits inserted) ∧
      ∀ inserted, Inserted edits inserted → s.selectors = inserted.eraseDups ∧
        ∀ origin x, origin.selector? = some x →
          ((Edit.insert origin).perform s).1 = .inserted (decide (x ∉ inserted))) ∧
    s.selectors.Nodup ∧
    (∀ x ∈ s.selectors, x.names ≠ [] ∧
      ∀ name ∈ x.names, name ≠ "" ∧ ∀ c ∈ name.toList, c ∉ ['/', ',', '(', ')']) ∧
    (∀ text cause, parse text = .error cause →
      (Edit.parse text).perform s = (.malformed cause, s) ∧
      (Edit.extend text).perform s = (.malformed cause, s)) ∧
    (∃ t, parse s.text = .ok t ∧ t.selectors = s.selectors) ∧
    (s.text = "" ↔ s.selectors = []) ∧
    ∀ edits', (performAll edits').text = s.text → (performAll edits').selectors = s.selectors := by
  intro s
  refine ⟨⟨exists_inserted edits, ?_⟩, s.nodup, ?_, ?_, ⟨s, s.parse_text, rfl⟩,
    text_eq_empty_iff, ?_⟩
  -- the selectors of a collected selection are those inserted, without repetitions
  · intro inserted history
    have hselectors : s.selectors = inserted.eraseDups := by
      rw [← selectors_ofList, ← history.performAll_eq]
    refine ⟨hselectors, ?_⟩
    intro origin x hmade
    simp only [Edit.perform, hmade, contains, hselectors, List.contains_eq_mem, List.mem_eraseDups,
      decide_not]
  · intro x _
    exact ⟨x.names_ne_nil, fun name hmem => spelled_of_mem_names hmem⟩
  · intro text cause hfailed
    constructor
    · simp only [Edit.perform, hfailed]
    · simp only [Edit.perform, hfailed]
  · intro edits' hsame
    rw [text_injective hsame]

/-- Operations that insert selectors again, and some that fail. -/
def someEdits : List Edit :=
  [.insert (.names ["z"]), .parse "b,a(x,b),b", .parse "a(", .insert (.names ["c", "d"]),
    .insert (.names ["a/b"]), .extend "a/b,e", .insert (.written "q,b" 1)]

/-- Among these operations are a malformed text and a name that cannot be spelled. -/
theorem performAll_wellFormed_someEdits :
    (performAll someEdits).text = "b,a/x,a/b,c/d,e" ∧
      ∃ t, parse "b,a/x,a/b,c/d,e" = .ok t ∧ t.selectors = (performAll someEdits).selectors := by
  have hwritten : (performAll someEdits).text = "b,a/x,a/b,c/d,e" := by decide +kernel
  have hreads := (performAll_wellFormed someEdits).2.2.2.2.1
  rw [hwritten] at hreads
  exact ⟨hwritten, hreads⟩

end PartialResponse.Selection
