import PartialResponse.Proofs.Selector.Failure

/-!
# PartialResponse.Proofs.Selector.Rounds — the rounds of a reading

Nothing counts the rounds of a reading, and a round can close any number of
groups. That it ends, and soon, is a matter of what a round leaves behind: one
that another round follows takes a segment off the text, and at least one
reserved character (`Leads`). So half of the characters, rounded up, bound the
rounds, the selectors and the segments of each.

What a round finds where it starts is an invariant of the reading (`Along`): the
stack has the groups that are open there, and the shared path is what stands in
front of their parentheses (`SharedPath`). Main statement: `parse_rounds`.
-/

namespace PartialResponse.Selection

open Grammar

/-- The readings with which the rounds start, from this one to the last. -/
def roundsFrom (r : Reading) : List Reading :=
  match _hr : round r with
  | .ok (.more s) => r :: roundsFrom s
  | _ => [r]
termination_by r.rest.length
decreasing_by exact length_rest_round _hr

/-- The rounds in which a text is read. The empty text takes none. -/
def rounds (text : String) : List Reading :=
  if text.toList = [] then [] else roundsFrom (.start text.toList)

/-- Whether a segment stands where the round starts. -/
def Reading.readsSegment (r : Reading) : Bool :=
  (readSegment r.position r.rest).isOk

/-- The selectors found when the round is over. -/
def Round.found : Round → Selection
  | .more r => r.found
  | .done selection => selection

/-! ## What a round does -/

section Round

variable {p : Nat} {groups : List OpenGroup} {base current : Array Segment} {found : Selection}
  {rest : List Char}

/-- The shared path only gets shorter when groups are closed. -/
theorem size_pathBehind_le (base : Array Segment) (inner : List OpenGroup) :
    (pathBehind base inner).size ≤ base.size := by
  induction inner generalizing base with
  | nil => exact Nat.le_refl _
  | cons group inner ih =>
    have hshrink : (base.shrink group.restoreLength).size ≤ base.size := by
      rw [Array.size_shrink]
      exact Nat.min_le_right _ _
    exact Nat.le_trans (ih _) hshrink

/-- Another selector follows just behind a comma, in front of which groups may be closed. -/
theorem closeGroups_more {text : List Char} {s : Reading}
    (h : closeGroups found text p groups base = .ok (.more s)) :
    ∃ inner outer rest, groups = inner ++ outer ∧ text = closings inner.length ++ ',' :: rest ∧
      s = ⟨rest, p + inner.length + 1, outer, pathBehind base inner, #[], found⟩ := by
  fun_induction closeGroups found text p groups base with
  | case1 => simp at h
  | case2 => simp at h
  | case3 => simp at h
  | case4 rest p base group outer ih =>
    -- one more group is closed in front of the others
    obtain ⟨inner, outer, rest, rfl, rfl, rfl⟩ := ih h
    refine ⟨group :: inner, outer, rest, rfl, rfl, ?_⟩
    have hlength : p + 1 + inner.length + 1 = p + (group :: inner).length + 1 := by
      rw [List.length_cons]
      omega
    rw [hlength]
    rfl
  | case5 rest p groups base =>
    obtain rfl : _ = s := by simpa using h
    exact ⟨[], groups, rest, rfl, rfl, rfl⟩
  | case6 => simp at h

/-- Where the text ends, what has been found is the answer. -/
theorem closeGroups_done {text : List Char} {s : Selection}
    (h : closeGroups found text p groups base = .ok (.done s)) : s = found := by
  fun_induction closeGroups found text p groups base with
  | case1 => simpa [eq_comm] using h
  | case2 => simp at h
  | case3 => simp at h
  | case4 _ _ _ _ _ ih => exact ih h
  | case5 => simp at h
  | case6 => simp at h

end Round

/-- What a round does that another one follows. Behind a slash the selector goes on, and a parenthesis
makes the segments in front of it part of the shared path. Otherwise a selector is complete; groups
may be closed, and there is a comma. -/
inductive Leads : Reading → Reading → Prop where
  | slash {rest p groups base current found} (segment : Segment) :
    Leads ⟨segment.name.toList ++ '/' :: rest, p, groups, base, current, found⟩
      ⟨rest, p + segment.name.length + 1, groups, base, current.push segment, found⟩
  | group {rest p groups base current found} (segment : Segment) :
    Leads ⟨segment.name.toList ++ '(' :: rest, p, groups, base, current, found⟩
      ⟨rest, p + segment.name.length + 1, ⟨base.size, p + segment.name.length⟩ :: groups,
        base ++ current.push segment, #[], found⟩
  | next {rest p base current found} (segment : Segment) (inner outer : List OpenGroup) :
    Leads ⟨segment.name.toList ++ (closings inner.length ++ ',' :: rest), p, inner ++ outer, base,
        current, found⟩
      ⟨rest, p + segment.name.length + inner.length + 1, outer, pathBehind base inner, #[],
        found.insert ⟨(base ++ current).toList, segment⟩⟩

/-- A comma ends a selector, with or without closing parentheses in front of it. -/
theorem endsTerm_closings_comma (n : Nat) (rest : List Char) :
    EndsTerm (closings n ++ ',' :: rest) := by
  cases n with
  | zero => simp [EndsTerm, closings]
  | succ n => simp [EndsTerm, closings, List.replicate_succ]

/-- A round starts with a segment, or it is the last one. -/
theorem readSegment_cases (r : Reading) :
    (r.readsSegment = false ∧ round r = .error (.emptySegment r.position)) ∨
      ∃ segment rest, readSegment r.position r.rest = .ok (segment, rest) := by
  cases hs : readSegment r.position r.rest with
  | error e =>
    obtain rfl : .emptySegment r.position = e := by
      unfold readSegment at hs
      split at hs <;> simp_all
    exact Or.inl ⟨by simp [Reading.readsSegment, hs, Except.isOk, Except.toBool], by
      simp [round, hs, bind, Except.bind]⟩
  | ok pair => exact Or.inr ⟨pair.1, pair.2, rfl⟩

/-- A round that reads a segment finds it at the start of the text, in front of a slash, of an opening
parenthesis, or where the selector ends. -/
theorem round_cases {r : Reading} {segment : Segment} {rest : List Char}
    (h : readSegment r.position r.rest = .ok (segment, rest)) :
    r.rest = segment.name.toList ++ rest ∧
      ((∃ others, rest = '/' :: others) ∨ (∃ others, rest = '(' :: others) ∨ EndsTerm rest) := by
  obtain ⟨htext, hreserved⟩ := readSegment_ok h
  refine ⟨htext, ?_⟩
  cases rest with
  | nil => exact Or.inr (Or.inr (by simp [EndsTerm]))
  | cons c others =>
    have hc : isReserved c = true := hreserved c rfl
    simp only [isReserved, Bool.or_eq_true, beq_iff_eq] at hc
    -- the four reserved characters, two of which end a selector
    rcases hc with ((rfl | rfl) | rfl) | rfl
    · exact Or.inl ⟨others, rfl⟩
    · exact Or.inr (Or.inr (by simp [EndsTerm]))
    · exact Or.inr (Or.inl ⟨others, rfl⟩)
    · exact Or.inr (Or.inr (by simp [EndsTerm]))

/-- There is another round just if the first one leads to it. -/
theorem round_eq_more_iff {r s : Reading} : round r = .ok (.more s) ↔ Leads r s := by
  constructor
  · intro h
    rcases readSegment_cases r with ⟨-, herror⟩ | ⟨segment, rest, hs⟩
    · simp [herror] at h
    · obtain ⟨htext, hcases⟩ := round_cases hs
      obtain ⟨text, p, groups, base, current, found⟩ := r
      subst htext
      -- a slash, the opening of a group, or the end of a selector
      rcases hcases with ⟨others, rfl⟩ | ⟨others, rfl⟩ | hends
      · obtain rfl : _ = s := by simpa [round_slash] using h
        exact .slash segment
      · obtain rfl : _ = s := by simpa [round_open] using h
        exact .group segment
      · rw [round_ends segment hends] at h
        obtain ⟨inner, outer, others, rfl, rfl, rfl⟩ := closeGroups_more h
        exact .next segment inner outer
  · intro h
    cases h with
    | slash segment => exact round_slash segment
    | group segment => exact round_open segment
    | next segment inner outer =>
      rw [round_ends segment (endsTerm_closings_comma _ _), closeGroups_closings_append,
        closeGroups_comma]

/-! ## Where a round starts -/

/-- Whether a path may start behind a text: at the start, behind a comma, or inside a group. -/
def StartsPath (before : List Char) : Prop :=
  before = [] ∨ ∃ c, before.getLast? = some c ∧ (c = ',' ∨ c = '(')

/-- A path starts behind a comma or an opening parenthesis, whatever is in front of it. -/
theorem startsPath_concat {done : List Char} {c : Char} (h : c = ',' ∨ c = '(') :
    StartsPath (done ++ [c]) :=
  Or.inr ⟨c, List.getLast?_concat, h⟩

/-- Groups that a text opens one inside the other, the innermost first, and the path they share: what
stands in front of the parenthesis of each, from the outermost on. A group remembers how long the
path of the groups around it is. -/
inductive SharedPath (text : List Char) : List OpenGroup → List Segment → Prop where
  | root : SharedPath text [] []
  | group {outer : List OpenGroup} {path : List Segment} (haround : SharedPath text outer path)
      {before inside : List Char} {first : Segment} {more : List Segment}
      (hstarts : StartsPath before)
      (hwritten : text = before ++ pathText first more ++ '(' :: inside) :
      SharedPath text (⟨path.length, (before ++ pathText first more).length⟩ :: outer)
        (path ++ first :: more)

section SharedPath

variable {text : List Char} {groups inner outer : List OpenGroup} {path : List Segment}
  {base : Array Segment}

/-- The paths that the groups remember get longer inwards, and the shared path is longer still. -/
theorem SharedPath.increasing (h : SharedPath text groups path) :
    (path.length :: groups.map OpenGroup.restoreLength).Pairwise (· > ·) := by
  induction h with
  | root => simp
  | @group outer path _ _ _ first more _ _ ih =>
    have hlonger : (path ++ first :: more).length > path.length := by simp
    rw [List.map_cons, List.pairwise_cons]
    refine ⟨?_, ih⟩
    intro n hn
    rcases List.mem_cons.1 hn with rfl | hn
    · exact hlonger
    · exact Nat.lt_trans (List.rel_of_pairwise_cons ih hn) hlonger

/-- What is left of the shared path when the innermost group closes is the path of those around it. -/
theorem SharedPath.shrink {group : OpenGroup} (h : SharedPath text (group :: outer) base.toList) :
    SharedPath text outer (base.shrink group.restoreLength).toList := by
  generalize hpath : base.toList = path at h
  cases h with
  | group haround hstarts hwritten => rwa [Array.toList_shrink, hpath, List.take_left]

/-- What is left of the shared path when some groups close is the path of the others. -/
theorem SharedPath.closeAll (h : SharedPath text (inner ++ outer) base.toList) :
    SharedPath text outer (pathBehind base inner).toList := by
  induction inner generalizing base with
  | nil => exact h
  | cons group inner ih => exact ih h.shrink

end SharedPath

/-- A reading that has come behind `done`, at the start of a round: the segments that it keeps since
the path started stand there, each with a slash behind it. -/
structure Along (text done : List Char) (r : Reading) : Prop where
  text_eq : text = done ++ r.rest
  before : BeforeSegment done r
  shared : SharedPath text r.groups r.base.toList
  current_written : ∃ start, StartsPath start ∧
    done = start ++ r.current.toList.flatMap fun segment => segment.name.toList ++ ['/']

/-- Segments with a slash behind each and another segment at the end are a path. -/
theorem pathText_of_slashed {kept more : List Segment} {first segment : Segment}
    (h : kept ++ [segment] = first :: more) :
    (kept.flatMap fun segment => segment.name.toList ++ ['/']) ++ segment.name.toList =
      pathText first more := by
  induction kept generalizing first more with
  | nil =>
    obtain ⟨rfl, rfl⟩ : segment = first ∧ [] = more := by simpa using h
    simp [pathText]
  | cons next kept ih =>
    obtain ⟨rfl, hmore⟩ : next = first ∧ kept ++ [segment] = more := by simpa using h
    cases more with
    | nil => simp at hmore
    | cons second more =>
      rw [pathText_cons, ← ih hmore]
      simp

/-- Nothing is open at the start. -/
theorem along_start (text : List Char) : Along text [] (.start text) where
  text_eq := rfl
  before := beforeSegment_start text
  shared := .root
  current_written := ⟨[], Or.inl rfl, rfl⟩

/-- Closing several groups, one after the other. -/
theorem BehindSelector.closeAll {done : List Char} {found : Selection} {p : Nat}
    {inner outer : List OpenGroup} {base : Array Segment}
    (h : BehindSelector done found p (inner ++ outer) base) :
    BehindSelector (done ++ closings inner.length) found (p + inner.length) outer
      (pathBehind base inner) := by
  induction inner generalizing done p base with
  | nil => simpa [closings, pathBehind] using h
  | cons group inner ih =>
    have hdone : done ++ closings (group :: inner).length =
        done ++ [')'] ++ closings inner.length := by
      simp [closings, List.replicate_succ]
    have hlength : p + (group :: inner).length = p + 1 + inner.length := by
      rw [List.length_cons]
      omega
    rw [hdone, hlength]
    exact ih h.close

/-- What holds where a round starts holds where the next one starts. -/
theorem Along.step {text done : List Char} {r s : Reading} (h : Along text done r)
    (hleads : Leads r s) : ∃ done, Along text done s := by
  obtain ⟨htext, hbefore, hshared, start, hstarts, hdone⟩ := h
  cases hleads with
  | slash segment =>
    refine ⟨_, ?_, hbefore.slash, hshared, start, hstarts, ?_⟩
    · rw [htext]
      simp
    · rw [hdone]
      simp
  | @group rest p groups base current found segment =>
    -- the group adds the segments since the last comma or parenthesis, of which there is one at
    -- least
    obtain ⟨first, more, hpath⟩ : ∃ first more, current.toList ++ [segment] = first :: more :=
      List.exists_cons_of_ne_nil (by simp)
    have hwritten : done ++ segment.name.toList = start ++ pathText first more := by
      rw [hdone, List.append_assoc, pathText_of_slashed hpath]
    have hposition : p + segment.name.length = (start ++ pathText first more).length := by
      have hp : p = done.length := hbefore.position_eq
      rw [← hwritten, List.length_append, String.length_toList, hp]
    have hbase : (base ++ current.push segment).toList = base.toList ++ first :: more := by
      simp [← hpath]
    refine ⟨done ++ segment.name.toList ++ ['('], ?_, hbefore.open, ?_, _,
      startsPath_concat (Or.inr rfl), (List.append_nil _).symm⟩
    · rw [htext]
      simp
    · show SharedPath text (⟨base.size, _⟩ :: groups) (base ++ current.push segment).toList
      rw [hbase, hposition]
      have hopened : text = start ++ pathText first more ++ '(' :: rest := by
        rw [← hwritten, htext]
        simp
      exact .group hshared hstarts hopened
  | next segment inner outer =>
    refine ⟨done ++ segment.name.toList ++ closings inner.length ++ [','], ?_,
      hbefore.complete.closeAll.comma, hshared.closeAll, _, startsPath_concat (Or.inl rfl),
      (List.append_nil _).symm⟩
    rw [htext]
    simp

/-! ## What a round takes off the text -/

/-- Between the starts of two rounds stand a segment and a reserved character. -/
def Apart (r s : Reading) : Prop :=
  ∃ (segment : Segment) (c : Char) (between : List Char), isReserved c = true ∧
    r.rest = segment.name.toList ++ c :: (between ++ s.rest)

/-- What is between the first two rounds is between the first and the third. -/
theorem Apart.trans {r s t : Reading} (hrs : Apart r s) (hst : Apart s t) : Apart r t := by
  obtain ⟨segment, c, between, hc, hr⟩ := hrs
  obtain ⟨second, d, more, -, hs⟩ := hst
  refine ⟨segment, c, between ++ (second.name.toList ++ d :: more), hc, ?_⟩
  rw [hr, hs]
  simp

/-- A round that leads to another has taken a segment and a reserved character off the text. -/
theorem Leads.apart {r s : Reading} (h : Leads r s) : Apart r s := by
  cases h with
  | slash segment => exact ⟨segment, '/', [], rfl, rfl⟩
  | group segment => exact ⟨segment, '(', [], rfl, rfl⟩
  | next segment inner outer =>
    cases inner with
    | nil => exact ⟨segment, ',', [], rfl, rfl⟩
    | cons group inner =>
      refine ⟨segment, ')', closings inner.length ++ [','], rfl, ?_⟩
      simp [closings, List.replicate_succ]

/-- A segment has a character. -/
theorem length_segment_pos (segment : Segment) : 0 < segment.name.toList.length := by
  have hspelled := segment.spelled
  rw [isSegment, Bool.and_eq_true] at hspelled
  have hne : segment.name.toList ≠ [] := by simpa using hspelled.1
  exact List.length_pos_iff.2 hne

/-- A segment has a character, so two characters are taken off. -/
theorem Apart.length_rest {r s : Reading} (h : Apart r s) : s.rest.length + 2 ≤ r.rest.length := by
  obtain ⟨segment, c, between, -, hr⟩ := h
  have hpos := length_segment_pos segment
  rw [hr, List.length_append, List.length_cons, List.length_append]
  omega

/-- A round that leads to another has read a segment. -/
theorem Leads.readsSegment {r s : Reading} (h : Leads r s) : r.readsSegment = true := by
  rcases readSegment_cases r with ⟨-, herror⟩ | ⟨segment, rest, hs⟩
  · simp [round_eq_more_iff.2 h] at herror
  · simp [Reading.readsSegment, hs, Except.isOk, Except.toBool]

/-! ## What a round completes -/

/-- The path that a segment completes has segments, so it is the path of a selector. -/
theorem ofSegments?_selector (r : Reading) (segment : Segment) :
    Selector.ofSegments? (r.base ++ r.current.push segment).toList = some (r.selector segment) := by
  simp [Selector.ofSegments?, Reading.selector, ← List.append_assoc]

/-- A round leaves the selectors that were found, or adds the one that its segment completes. -/
theorem found_round {r : Reading} {next : Round} (h : round r = .ok next) :
    ∃ segment rest, readSegment r.position r.rest = .ok (segment, rest) ∧
      (next.found = r.found ∨ next.found = r.found.insert (r.selector segment)) := by
  rcases readSegment_cases r with ⟨-, herror⟩ | ⟨segment, rest, hs⟩
  · simp [herror] at h
  · refine ⟨segment, rest, hs, ?_⟩
    obtain ⟨htext, hcases⟩ := round_cases hs
    obtain ⟨text, p, groups, base, current, found⟩ := r
    subst htext
    rcases hcases with ⟨others, rfl⟩ | ⟨others, rfl⟩ | hends
    · obtain rfl : _ = next := by simpa [round_slash] using h
      exact Or.inl rfl
    · obtain rfl : _ = next := by simpa [round_open] using h
      exact Or.inl rfl
    · rw [round_ends segment hends] at h
      right
      cases next with
      | more s =>
        obtain ⟨inner, outer, others, rfl, rfl, rfl⟩ := closeGroups_more h
        rfl
      | done selection => exact closeGroups_done h

/-- Where a path is completed it is one segment longer than what is kept of it. -/
theorem size_selector (r : Reading) (segment : Segment) :
    (r.selector segment).size = r.base.size + r.current.size + 1 := by
  simp [Selector.size, Selector.segments, Reading.selector, Nat.add_assoc]

/-- What is kept of the path gets longer by a segment at most. -/
theorem Leads.size_le {r s : Reading} (h : Leads r s) :
    s.base.size + s.current.size ≤ r.base.size + r.current.size + 1 := by
  cases h with
  | slash segment => simp [Nat.add_assoc]
  | group segment => simp [Nat.add_assoc]
  | @next _ _ base current _ segment inner outer =>
    have hbase := size_pathBehind_le base inner
    simp only [List.size_toArray, List.length_nil]
    omega

/-! ## All rounds -/

theorem roundsFrom_more {r s : Reading} (h : round r = .ok (.more s)) :
    roundsFrom r = r :: roundsFrom s := by
  rw [roundsFrom]
  split <;> simp_all

theorem roundsFrom_last {r : Reading} (h : ∀ s, round r ≠ .ok (.more s)) :
    roundsFrom r = [r] := by
  rw [roundsFrom]
  split <;> simp_all

/-- What each round hands on to the next one holds of all of them. -/
theorem forall_mem_roundsFrom {P : Reading → Prop} (hstep : ∀ {r s}, P r → Leads r s → P s)
    {r : Reading} (h : P r) : ∀ s ∈ roundsFrom r, P s := by
  fun_induction roundsFrom r with
  | case1 r s hr ih => exact List.forall_mem_cons.2 ⟨h, ih (hstep h (round_eq_more_iff.1 hr))⟩
  | case2 r hlast => simpa using h

/-- Any two rounds are apart, not only those that follow each other. -/
theorem pairwise_apart (r : Reading) : (roundsFrom r).Pairwise Apart := by
  fun_induction roundsFrom r with
  | case1 r s hr ih =>
    have hapart : Apart r s := (round_eq_more_iff.1 hr).apart
    -- the round is apart from the next one, and so from all behind it
    have hlater : ∀ t ∈ roundsFrom s, Apart r t :=
      forall_mem_roundsFrom (fun h hleads => h.trans hleads.apart) hapart
    exact List.pairwise_cons.2 ⟨hlater, ih⟩
  | case2 r hlast => exact List.pairwise_singleton _ _

/-- The rest of the reading is the same from each of its rounds. -/
theorem readAll_of_mem_roundsFrom {r s : Reading} (h : s ∈ roundsFrom r) :
    readAll s = readAll r := by
  refine forall_mem_roundsFrom (P := fun s => readAll s = readAll r) ?_ rfl s h
  intro s t hs hleads
  rw [← hs, readAll_eq_finish s, round_eq_more_iff.2 hleads, finish_more]

/-- The last round is one that no other follows. -/
theorem getLast?_roundsFrom (r : Reading) :
    ∃ last, (roundsFrom r).getLast? = some last ∧ ∀ s, round last ≠ .ok (.more s) := by
  fun_induction roundsFrom r with
  | case1 r s hr ih =>
    obtain ⟨last, hlast, hmore⟩ := ih
    exact ⟨last, by rw [List.getLast?_cons, hlast]; rfl, hmore⟩
  | case2 r hmore => exact ⟨r, rfl, hmore⟩

/-- Two characters for each segment that is read, but for the last. -/
theorem countP_readsSegment_le (r : Reading) :
    2 * (roundsFrom r).countP Reading.readsSegment ≤ r.rest.length + 1 := by
  fun_induction roundsFrom r with
  | case1 r s hr ih =>
    have hleads := round_eq_more_iff.1 hr
    have hlength := hleads.apart.length_rest
    rw [List.countP_cons_of_pos hleads.readsSegment]
    omega
  | case2 r hlast =>
    rcases readSegment_cases r with ⟨hnone, -⟩ | ⟨segment, rest, hs⟩
    · simp [hnone]
    · have hpos := length_segment_pos segment
      have hlength : segment.name.toList.length ≤ r.rest.length := by
        rw [(round_cases hs).1, List.length_append]
        omega
      -- the last segment may be a single character with nothing behind it
      have hone : ([r] : List Reading).countP Reading.readsSegment ≤ 1 :=
        List.countP_le_length
      omega

/-- A selector that is there already is not added again. -/
theorem size_insert_le (s : Selection) (x : Selector) : (s.insert x).size ≤ s.size + 1 := by
  rw [size, selectors_insert]
  split <;> simp [size]

/-- A round adds one selector at most, a segment longer than what was kept of the path. -/
theorem found_round_bounds {r : Reading} {next : Round} (h : round r = .ok next) :
    next.found.size ≤ r.found.size + 1 ∧
      ∀ x ∈ next.found.selectors, x ∈ r.found.selectors ∨
        x.size = r.base.size + r.current.size + 1 := by
  obtain ⟨segment, rest, -, hfound | hfound⟩ := found_round h
  · rw [hfound]
    exact ⟨Nat.le_succ _, fun x hx => Or.inl hx⟩
  · rw [hfound]
    refine ⟨size_insert_le _ _, ?_⟩
    intro x hx
    rcases mem_insert.1 hx with hx | rfl
    · exact Or.inl hx
    · exact Or.inr (size_selector r segment)

/-- So many rounds that read a segment find so many selectors at most, and none that has more segments
than these rounds read behind what was kept of the path. -/
theorem readAll_bounds {r : Reading} {s : Selection} (h : readAll r = .ok s) :
    s.size ≤ r.found.size + (roundsFrom r).countP Reading.readsSegment ∧
      ∀ x ∈ s.selectors, x ∈ r.found.selectors ∨
        x.size ≤ r.base.size + r.current.size + (roundsFrom r).countP Reading.readsSegment := by
  fun_induction roundsFrom r with
  | case1 r t hr ih =>
    have hleads := round_eq_more_iff.1 hr
    obtain ⟨hsize, hmembers⟩ := found_round_bounds hr
    have hpath := hleads.size_le
    rw [readAll_eq_finish, hr, finish_more] at h
    obtain ⟨hsizes, hlater⟩ := ih h
    rw [List.countP_cons_of_pos hleads.readsSegment]
    simp only [Round.found] at hsize hmembers
    refine ⟨by omega, ?_⟩
    intro x hx
    rcases hlater x hx with hfound | hle
    · rcases hmembers x hfound with hbefore | heq
      · exact Or.inl hbefore
      · exact Or.inr (by omega)
    · exact Or.inr (by omega)
  | case2 r hmore =>
    -- the reading succeeds, so the last round is done
    obtain hr : round r = .ok (.done s) := by
      rw [readAll_eq_finish] at h
      cases hround : round r with
      | error e => simp [hround, finish] at h
      | ok next =>
        cases next with
        | more t => exact absurd hround (hmore t)
        | done selection => simpa [hround, finish] using h
    obtain ⟨segment, rest, hs, -⟩ := found_round hr
    have hreads : r.readsSegment = true := by
      simp [Reading.readsSegment, hs, Except.isOk, Except.toBool]
    obtain ⟨hsize, hmembers⟩ := found_round_bounds hr
    rw [List.countP_cons_of_pos hreads, List.countP_nil]
    refine ⟨hsize, ?_⟩
    intro x hx
    exact (hmembers x hx).imp_right Nat.le_of_eq

/-! ## Whole texts -/

/-- What holds of a text where a round starts. -/
structure Sound (text : List Char) (r : Reading) : Prop where
  /-- The round goes on with the text from its position. -/
  rest_eq : r.rest = text.drop r.position
  /-- The groups are those of the parentheses that are open there. -/
  opened : r.groups.map OpenGroup.openedAt = openBehind [] 0 (text.take r.position)
  /-- The shared path is made of what stands in front of these parentheses. -/
  shared : SharedPath text r.groups r.base.toList
  /-- The paths that the groups remember get longer inwards, and the shared path is longer still. -/
  increasing : (r.base.size :: r.groups.map OpenGroup.restoreLength).Pairwise (· > ·)
  /-- Behind so many closing parentheses the path is the one that the groups still open share. -/
  restores : ∀ inner outer, r.groups = inner ++ outer → ∃ path : Array Segment,
    SharedPath text outer path.toList ∧ ∀ found rest p,
      closeGroups found (closings inner.length ++ rest) p r.groups r.base =
        closeGroups found rest (p + inner.length) outer path

/-- What is known about a reading from its start, said of its position. -/
theorem Along.sound {text done : List Char} {r : Reading} (h : Along text done r) :
    Sound text r where
  rest_eq := by rw [h.text_eq, h.before.position_eq, List.drop_left]
  opened := by
    rw [h.before.opened, h.before.position_eq, h.text_eq, List.take_left]
  shared := h.shared
  increasing := h.shared.increasing
  restores inner outer hgroups := by
    have hshared := h.shared
    rw [hgroups] at hshared
    refine ⟨pathBehind r.base inner, hshared.closeAll, ?_⟩
    intro found rest p
    rw [hgroups, closeGroups_closings_append]

/-- The invariant holds at every round, since it holds at the start and each round hands it on. -/
theorem sound_of_mem_roundsFrom {text : List Char} {r : Reading}
    (h : r ∈ roundsFrom (.start text)) : Sound text r := by
  have halong : ∃ done, Along text done r :=
    forall_mem_roundsFrom (P := fun r => ∃ done, Along text done r)
      (fun ⟨_, h⟩ hleads => h.step hleads) ⟨[], along_start text⟩ r h
  obtain ⟨done, halong⟩ := halong
  exact halong.sound

section Text

variable {t : String}

/-- Only a text that is not empty takes rounds. -/
theorem mem_rounds {r : Reading} (h : r ∈ rounds t) :
    parse t = readAll (.start t.toList) ∧ r ∈ roundsFrom (.start t.toList) := by
  by_cases hnil : t.toList = []
  · rw [rounds, if_pos hnil] at h
    exact absurd h List.not_mem_nil
  · rw [rounds, if_neg hnil] at h
    exact ⟨by rw [parse, if_neg hnil], h⟩

/-- A round that reads no segment is where the reading ends. One that does finds at most the selector
that the segment completes. -/
theorem reads_of_mem_rounds {r : Reading} (h : r ∈ rounds t) :
    r.readsSegment = false ∧ round r = .error (.emptySegment r.position) ∧
        parse t = .error (.emptySegment r.position) ∨
      ∃ segment rest, readSegment r.position r.rest = .ok (segment, rest) ∧
        r.rest = segment.name.toList ++ rest ∧ 0 < segment.name.toList.length ∧
        Selector.ofSegments? (r.base ++ r.current.push segment).toList =
          some (r.selector segment) ∧
        ∀ next, round r = .ok next →
          next.found = r.found ∨ next.found = r.found.insert (r.selector segment) := by
  obtain ⟨hparse, hmem⟩ := mem_rounds h
  rcases readSegment_cases r with ⟨hnone, herror⟩ | ⟨segment, rest, hs⟩
  · have hread := readAll_of_mem_roundsFrom hmem
    rw [readAll_eq_finish r, herror] at hread
    exact Or.inl ⟨hnone, herror, hparse.trans hread.symm⟩
  · refine Or.inr ⟨segment, rest, hs, (round_cases hs).1, length_segment_pos segment,
      ofSegments?_selector r segment, fun next hnext => ?_⟩
    obtain ⟨other, _, hother, hfound⟩ := found_round hnext
    obtain ⟨rfl, -⟩ : segment = other ∧ rest = _ := by simpa [hs] using hother
    exact hfound

theorem pairwise_apart_rounds (t : String) : (rounds t).Pairwise Apart := by
  unfold rounds
  split
  · exact List.Pairwise.nil
  · exact pairwise_apart _

/-- The last round decides. -/
theorem exists_last_of_ne (h : t ≠ "") : ∃ last, (rounds t).getLast? = some last ∧
    (∀ s, round last ≠ .ok (.more s)) ∧ parse t = finish (round last) := by
  have hne : t.toList ≠ [] := by simpa using h
  obtain ⟨last, hlast, hmore⟩ := getLast?_roundsFrom (.start t.toList)
  refine ⟨last, by rw [rounds, if_neg hne, hlast], hmore, ?_⟩
  rw [parse, if_neg hne, ← readAll_eq_finish, readAll_of_mem_roundsFrom (List.mem_of_getLast? hlast)]

/-- At most half of the characters, rounded up, are rounds that read a segment. -/
theorem countP_rounds_le (t : String) :
    (rounds t).countP Reading.readsSegment ≤ (t.length + 1) / 2 := by
  unfold rounds
  split
  · exact Nat.zero_le _
  · have hhalf := countP_readsSegment_le (.start t.toList)
    have hlength : (Reading.start t.toList).rest.length = t.length := String.length_toList
    omega

/-- What has been found is bounded by the number of rounds that read a segment. -/
theorem bounds_of_parse {s : Selection} (h : parse t = .ok s) :
    s.size ≤ (rounds t).countP Reading.readsSegment ∧
      ∀ x ∈ s.selectors, x.size ≤ (rounds t).countP Reading.readsSegment := by
  by_cases hnil : t.toList = []
  · obtain rfl : empty = s := by simpa [parse, hnil] using h
    exact ⟨Nat.zero_le _, fun _ hx => absurd hx List.not_mem_nil⟩
  · rw [parse, if_neg hnil] at h
    obtain ⟨hsize, hmembers⟩ := readAll_bounds h
    rw [rounds, if_neg hnil]
    -- nothing is found and no path is kept where the reading starts
    have hfound : (Reading.start t.toList).found.size = 0 := rfl
    have hpath : (Reading.start t.toList).base.size +
        (Reading.start t.toList).current.size = 0 := rfl
    refine ⟨by omega, fun x hx => ?_⟩
    rcases hmembers x hx with hnone | hle
    · exact absurd hnone List.not_mem_nil
    · omega

end Text

/-- A text is read in finitely many rounds, and the last one decides what it is read as. Where a round
starts, the stack and the shared path are those of the groups open there, and closing groups brings
back the path of the groups around them. A round ends the reading at once, since a segment is
missing, or it takes a segment off the text; any two are apart by a reserved character besides. A
path is completed only when it has segments. So the number of rounds that read a segment, the number of
selectors and the number of segments of each are at most half the number of characters, rounded up. -/
theorem parse_rounds (t : String) :
    (∀ r ∈ rounds t, Sound t.toList r ∧
      (r.readsSegment = false ∧ round r = .error (.emptySegment r.position) ∧
          parse t = .error (.emptySegment r.position) ∨
        ∃ segment rest, readSegment r.position r.rest = .ok (segment, rest) ∧
          r.rest = segment.name.toList ++ rest ∧ 0 < segment.name.toList.length ∧
          Selector.ofSegments? (r.base ++ r.current.push segment).toList =
            some (r.selector segment) ∧
          ∀ next, round r = .ok next →
            next.found = r.found ∨ next.found = r.found.insert (r.selector segment))) ∧
    (rounds t).Pairwise Apart ∧
    (t ≠ "" → ∃ last, (rounds t).getLast? = some last ∧ (∀ s, round last ≠ .ok (.more s)) ∧
      parse t = finish (round last)) ∧
    (rounds t).countP Reading.readsSegment ≤ (t.length + 1) / 2 ∧
    ∀ s, parse t = .ok s → s.size ≤ (t.length + 1) / 2 ∧
      ∀ x ∈ s.selectors, x.size ≤ (t.length + 1) / 2 := by
  have hcount := countP_rounds_le t
  refine ⟨fun r hr => ⟨sound_of_mem_roundsFrom (mem_rounds hr).2, reads_of_mem_rounds hr⟩,
    pairwise_apart_rounds t, exists_last_of_ne, hcount, fun s hs => ?_⟩
  obtain ⟨hsize, hmembers⟩ := bounds_of_parse hs
  exact ⟨Nat.le_trans hsize hcount, fun x hx => Nat.le_trans (hmembers x hx) hcount⟩

/-- A group in a group: the path goes back to what it was before the inner one, and two selectors come
out of four rounds. -/
theorem parse_rounds_nested :
    (rounds "a(b(c),d)").map (fun r => (r.position, r.base.toList.map Segment.name)) =
        [(0, []), (2, ["a"]), (4, ["a", "b"]), (7, ["a"])] ∧
      (∀ r ∈ rounds "a(b(c),d)", Sound "a(b(c),d)".toList r) ∧
      (rounds "a(b(c),d)").countP Reading.readsSegment ≤ 5 ∧
      ∃ s, parse "a(b(c),d)" = .ok s ∧ s.size = 2 ∧ s.size ≤ 5 := by
  have hfirst : round (.start "a(b(c),d)".toList) =
      .ok (.more ⟨"b(c),d)".toList, 2, [⟨0, 1⟩], #[⟨"a", by decide⟩], #[], empty⟩) := rfl
  have hsecond : round ⟨"b(c),d)".toList, 2, [⟨0, 1⟩], #[⟨"a", by decide⟩], #[], empty⟩ =
      .ok (.more ⟨"c),d)".toList, 4, [⟨1, 3⟩, ⟨0, 1⟩], #[⟨"a", by decide⟩, ⟨"b", by decide⟩], #[],
        empty⟩) := rfl
  have hthird : round ⟨"c),d)".toList, 4, [⟨1, 3⟩, ⟨0, 1⟩],
        #[⟨"a", by decide⟩, ⟨"b", by decide⟩], #[], empty⟩ =
      .ok (.more ⟨"d)".toList, 7, [⟨0, 1⟩], #[⟨"a", by decide⟩], #[],
        empty.insert ⟨[⟨"a", by decide⟩, ⟨"b", by decide⟩], ⟨"c", by decide⟩⟩⟩) := rfl
  have hlast : ∃ s, s.size = 2 ∧ round ⟨"d)".toList, 7, [⟨0, 1⟩], #[⟨"a", by decide⟩], #[],
        empty.insert ⟨[⟨"a", by decide⟩, ⟨"b", by decide⟩], ⟨"c", by decide⟩⟩⟩ = .ok (.done s) :=
    ⟨_, rfl, rfl⟩
  obtain ⟨s, hsize, hlast⟩ := hlast
  have hparse : parse "a(b(c),d)" = .ok s := by
    rw [parse, if_neg (by decide), readAll_eq_finish, hfirst, finish_more, readAll_eq_finish,
      hsecond, finish_more, readAll_eq_finish, hthird, finish_more, readAll_eq_finish, hlast]
    rfl
  obtain ⟨hrounds, -, -, hcount, hbounds⟩ := parse_rounds "a(b(c),d)"
  refine ⟨?_, fun r hr => (hrounds r hr).1, hcount, s, hparse, hsize, (hbounds s hparse).1⟩
  rw [rounds, if_neg (by decide), roundsFrom_more hfirst, roundsFrom_more hsecond,
    roundsFrom_more hthird, roundsFrom_last (by rw [hlast]; simp)]
  rfl

end PartialResponse.Selection
