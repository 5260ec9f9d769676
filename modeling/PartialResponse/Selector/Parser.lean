import PartialResponse.Selector.Selection

/-!
# PartialResponse.Selector.Parser — reading selector text

Selector text is a list of selectors separated by commas. A selector is one or
more segments separated by slashes, and may end in a group: a list of selectors
in parentheses, each of which continues the path before the group. So
`a(b,c(d,e))` stands for `a/b`, `a/c/d` and `a/c/e`. The empty text selects
nothing.

Reading goes in rounds. A round reads one segment and what closes it; the groups
that are still open lie on a stack, and the segments they contribute share one
path, which goes back to what it was before when a group closes.
-/

namespace PartialResponse

/-- Why a text is no selector text. Positions count characters from the start. -/
inductive SelectorError where
  /-- A segment has to start here, and there is none. -/
  | emptySegment (position : Nat)
  /-- Behind a closed group stands neither a comma nor a closing parenthesis. -/
  | unexpectedCharacter (position : Nat) (found : Char)
  /-- The group opened here is not closed. -/
  | unclosedGroup (position : Nat)
  /-- This closing parenthesis closes nothing. -/
  | unmatchedClose (position : Nat)
deriving DecidableEq, Repr

namespace SelectorError

/-- What may stand behind a closed group. -/
def expected : String := "',' or ')'"

/-- Where the error is. -/
def position : SelectorError → Nat
  | emptySegment p => p
  | unexpectedCharacter p _ => p
  | unclosedGroup p => p
  | unmatchedClose p => p

/-- The error in words. -/
def message : SelectorError → String
  | emptySegment p => s!"Empty segment at position {p}"
  | unexpectedCharacter p c =>
    s!"Unexpected '{c}' at position {p}, expected {expected}"
  | unclosedGroup p => s!"Unclosed '(' opened at position {p}"
  | unmatchedClose p => s!"Unmatched ')' at position {p}"

end SelectorError

namespace Selection

/-- A group that has been opened and not closed yet. -/
structure OpenGroup where
  /-- How long the shared path was before the group extended it. -/
  restoreLength : Nat
  openedAt : Nat
deriving DecidableEq

/-- How far a text has been read. -/
structure Reading where
  rest : List Char
  position : Nat
  groups : List OpenGroup
  /-- The segments contributed by the open groups. -/
  base : Array Segment
  /-- The segments read since the innermost group was opened or the last comma. -/
  current : Array Segment
  found : Selection

/-- What a round of reading comes to. -/
inductive Round where
  | more (reading : Reading)
  | done (selection : Selection)

/-- The longest segment at the start of the text, and the text behind it. -/
def readSegment (position : Nat) (text : List Char) :
    Except SelectorError (Segment × List Char) :=
  if h : isSegment (String.ofList (text.takeWhile (!isReserved ·))) = true then
    .ok (⟨String.ofList (text.takeWhile (!isReserved ·)), h⟩, text.dropWhile (!isReserved ·))
  else .error (.emptySegment position)

/-- Closes groups behind a completed selector; a group that closes takes its segments off the shared
path. At the end of the text nothing is left; behind a comma another selector has to follow. -/
def closeGroups (found : Selection) : List Char → Nat → List OpenGroup → Array Segment →
    Except SelectorError Round
  | [], _, [], _ => .ok (.done found)
  | [], _, group :: _, _ => .error (.unclosedGroup group.openedAt)
  | c :: rest, position, groups, base =>
    if c = ')' then
      match groups with
      | [] => .error (.unmatchedClose position)
      | group :: outer =>
        closeGroups found rest (position + 1) outer (base.shrink group.restoreLength)
    else if c = ',' then
      .ok (.more ⟨rest, position + 1, groups, base, #[], found⟩)
    else .error (.unexpectedCharacter position c)

/-- The selector that a segment completes. -/
def Reading.selector (r : Reading) (segment : Segment) : Selector :=
  ⟨(r.base ++ r.current).toList, segment⟩

/-- One round: a segment, then the reserved characters behind it. -/
def round (r : Reading) : Except SelectorError Round := do
  let (segment, rest) ← readSegment r.position r.rest
  let position := r.position + segment.name.length
  match rest with
  | '/' :: rest =>
    .ok (.more { r with rest, position := position + 1, current := r.current.push segment })
  | '(' :: rest =>
    .ok (.more { r with
      rest
      position := position + 1
      groups := ⟨r.base.size, position⟩ :: r.groups
      base := r.base ++ r.current.push segment
      current := #[] })
  -- a comma completes the selector, and so does whatever is not reserved for going on
  | ',' :: rest =>
    let found := r.found.insert (r.selector segment)
    .ok (.more { r with rest, position := position + 1, current := #[], found })
  | rest => closeGroups (r.found.insert (r.selector segment)) rest position r.groups r.base

/-- A segment is taken off the text. -/
theorem length_rest_readSegment {p : Nat} {text : List Char} {segment : Segment}
    {rest : List Char} (h : readSegment p text = .ok (segment, rest)) :
    rest.length ≤ text.length := by
  unfold readSegment at h
  split at h
  · simp only [Except.ok.injEq, Prod.mk.injEq] at h
    rw [← h.2]
    exact (List.dropWhile_suffix _).length_le
  · simp at h

/-- Another selector follows only behind a comma. -/
theorem length_rest_closeGroups {found : Selection} {text : List Char} {p : Nat}
    {groups : List OpenGroup} {base : Array Segment} {r : Reading}
    (h : closeGroups found text p groups base = .ok (.more r)) :
    r.rest.length < text.length := by
  -- `case4` closes a group, `case5` is the comma
  fun_induction closeGroups found text p groups base with
  | case1 => simp at h
  | case2 => simp at h
  | case3 => simp at h
  | case4 rest _ _ _ _ ih => exact Nat.lt_succ_of_lt (ih h)
  | case5 rest =>
    simp only [Except.ok.injEq, Round.more.injEq] at h
    simp [← h]
  | case6 => simp at h

/-- A round that does not end the reading leaves less to read. -/
theorem length_rest_round {r s : Reading} (h : round r = .ok (.more s)) :
    s.rest.length < r.rest.length := by
  unfold round at h
  cases hs : readSegment r.position r.rest with
  | error e => simp [hs, bind, Except.bind] at h
  | ok pair =>
    obtain ⟨segment, rest⟩ := pair
    have hle := length_rest_readSegment hs
    simp only [hs, bind, Except.bind] at h
    split at h
    -- `h_4` closes groups, the others take the character behind the segment
    case h_4 => exact Nat.lt_of_lt_of_le (length_rest_closeGroups h) hle
    all_goals
      simp only [Except.ok.injEq, Round.more.injEq] at h
      simp only [List.length_cons] at hle
      rw [← h]
      exact hle

/-- Reads round by round to the end of the text. -/
def readAll (r : Reading) : Except SelectorError Selection :=
  match _hr : round r with
  | .error e => .error e
  | .ok (.done selection) => .ok selection
  | .ok (.more s) => readAll s
termination_by r.rest.length
decreasing_by exact length_rest_round _hr

/-- The reading of a text that has not begun. -/
def Reading.start (text : List Char) : Reading :=
  ⟨text, 0, [], #[], #[], empty⟩

/-- The selection that a text stands for. The empty text stands for the empty selection. -/
def parse (text : String) : Except SelectorError Selection :=
  if text.toList = [] then .ok empty else readAll (.start text.toList)

end Selection

end PartialResponse
