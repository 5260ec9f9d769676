import PartialResponse.Proofs.Selector.Parsing

/-!
# PartialResponse.Proofs.Selector.Failure — where reading fails

Whatever has been read of a text can still be completed: by a segment, where one
has to stand, and by a closing parenthesis for each open group. So an error names
the first character that no completion can have, and what comes behind it does
not matter; only a group left open shows nowhere before the end.

What has been read is carried along as an invariant of the reading, before a
segment (`BeforeSegment`) and behind one (`BehindSelector`). Main statement:
`parse_error`.
-/

namespace PartialResponse

/-! ## Open parentheses -/

/-- The positions of the parentheses that are open behind a text, the innermost first. The text starts
at the given position, where `opened` are open. -/
def openBehind (opened : List Nat) (position : Nat) : List Char → List Nat
  | [] => opened
  | c :: rest =>
    openBehind (if c = '(' then position :: opened else if c = ')' then opened.tail else opened)
      (position + 1) rest

/-- Two texts in a row: the second one starts behind the first, with what that has left open. -/
theorem openBehind_append (opened : List Nat) (position : Nat) (text rest : List Char) :
    openBehind opened position (text ++ rest) =
      openBehind (openBehind opened position text) (position + text.length) rest := by
  induction text generalizing opened position with
  | nil => rfl
  | cons c text ih =>
    -- the first character moves the start of the rest on by one
    have hlength : position + 1 + text.length = position + (c :: text).length := by
      rw [List.length_cons]
      omega
    rw [List.cons_append, openBehind, ih, hlength, openBehind]

/-- What is not reserved opens and closes nothing. -/
theorem openBehind_of_not_reserved {opened : List Nat} {position : Nat} {text : List Char}
    (h : ∀ c ∈ text, isReserved c = false) : openBehind opened position text = opened := by
  induction text generalizing position with
  | nil => rfl
  | cons c text ih =>
    have hc : isReserved c = false := h c List.mem_cons_self
    simp only [isReserved, Bool.or_eq_false_iff, beq_eq_false_iff_ne] at hc
    rw [openBehind, if_neg hc.1.2, if_neg hc.2]
    exact ih fun c hc => h c (List.mem_cons_of_mem _ hc)

/-- No character of a segment is reserved, since a segment is spelled that way. -/
theorem not_reserved_of_mem_segment {segment : Segment} {c : Char} (h : c ∈ segment.name.toList) :
    isReserved c = false := by
  have hspelled := segment.spelled
  rw [isSegment, Bool.and_eq_true, List.all_eq_true] at hspelled
  simpa using hspelled.2 c h

/-- A segment ends in a character that is not reserved. -/
theorem getLast?_segment_ne (done : List Char) (segment : Segment) :
    (done ++ segment.name.toList).getLast? ≠ some ')' := by
  have hspelled := segment.spelled
  rw [isSegment, Bool.and_eq_true] at hspelled
  have hne : segment.name.toList ≠ [] := by simpa using hspelled.1
  intro hlast
  rw [List.getLast?_append_of_ne_nil _ hne] at hlast
  have hclose := not_reserved_of_mem_segment (List.mem_of_getLast? hlast)
  simp [isReserved] at hclose

/-- Segments neither open nor close anything. -/
theorem openBehind_segment (opened : List Nat) (position : Nat) (segment : Segment) :
    openBehind opened position segment.name.toList = opened :=
  openBehind_of_not_reserved fun _ => not_reserved_of_mem_segment

/-- At each of the positions stands an opening parenthesis. -/
theorem getElem?_of_mem_openBehind {opened : List Nat} {position p : Nat} {text : List Char}
    (h : p ∈ openBehind opened position text) :
    p ∈ opened ∨ position ≤ p ∧ text[p - position]? = some '(' := by
  induction text generalizing opened position with
  | nil => exact Or.inl h
  | cons c text ih =>
    -- it was open in front of the rest, or it stands in the rest
    rcases ih h with hopened | ⟨hle, hparen⟩
    · split at hopened
      · rename_i hc
        rcases List.mem_cons.1 hopened with rfl | hopened
        · exact Or.inr ⟨Nat.le_refl _, by simp [hc]⟩
        · exact Or.inl hopened
      · split at hopened
        · exact Or.inl (List.mem_of_mem_tail hopened)
        · exact Or.inl hopened
    · have hnext : p - position = p - (position + 1) + 1 := by omega
      exact Or.inr ⟨by omega, by rw [hnext, List.getElem?_cons_succ, hparen]⟩

namespace Selection

/-! ## What an error says -/

/-- Whether a text is read to its end. -/
def Accepts (text : List Char) : Prop :=
  ∃ s, parse (.ofList text) = .ok s

/-- So many closing parentheses. -/
def closings (n : Nat) : List Char :=
  List.replicate n ')'

/-- What an error says about a text. -/
def Explains (text : List Char) : SelectorError → Prop
  | .emptySegment p =>
    (p = text.length ∨ ∃ c, text[p]? = some c ∧ isReserved c = true) ∧
      (p = 0 ∨ ∃ c, text[p - 1]? = some c ∧ (c = '/' ∨ c = ',' ∨ c = '(')) ∧
      ∀ segment : Segment, ∃ n, Accepts (text.take p ++ segment.name.toList ++ closings n)
  | .unexpectedCharacter p found =>
    text[p]? = some found ∧ found ≠ ',' ∧ found ≠ ')' ∧
      0 < p ∧ text[p - 1]? = some ')' ∧ ∃ n, Accepts (text.take p ++ closings n)
  | .unmatchedClose p => text[p]? = some ')' ∧ Accepts (text.take p)
  | .unclosedGroup p =>
    text[p]? = some '(' ∧ (openBehind [] 0 text).head? = some p ∧
      ∃ n, 1 ≤ n ∧ Accepts (text ++ closings n)

/-- A text with a character in it is read from the start; only the empty one selects nothing. -/
theorem parse_ofList {text : List Char} (h : text ≠ []) :
    parse (.ofList text) = readAll (.start text) := by
  rw [parse, String.toList_ofList, if_neg h]

/-- A text that is read to its end is accepted; the empty one is, too. -/
theorem accepts_of_readAll {text : List Char} {s : Selection} (h : readAll (.start text) = .ok s) :
    Accepts text := by
  by_cases hnil : text = []
  · subst hnil
    exact ⟨empty, rfl⟩
  · exact ⟨s, by rw [parse_ofList hnil, h]⟩

variable {p : Nat} {groups : List OpenGroup} {base : Array Segment} {found : Selection}

/-- The shared path behind groups that have been closed, the innermost first. -/
def pathBehind (base : Array Segment) (inner : List OpenGroup) : Array Segment :=
  inner.foldl (fun path group => path.shrink group.restoreLength) base

/-- As many closing parentheses as there are groups in front close just these. -/
theorem closeGroups_closings_append (found : Selection) (p : Nat) (inner outer : List OpenGroup)
    (base : Array Segment) (rest : List Char) :
    closeGroups found (closings inner.length ++ rest) p (inner ++ outer) base =
      closeGroups found rest (p + inner.length) outer (pathBehind base inner) := by
  induction inner generalizing p base with
  | nil => rfl
  | cons group inner ih =>
    have htext : closings (group :: inner).length ++ rest =
        ')' :: (closings inner.length ++ rest) := rfl
    have hlength : p + 1 + inner.length = p + (group :: inner).length := by
      rw [List.length_cons]
      omega
    rw [htext, List.cons_append, closeGroups_close, ih, hlength]
    rfl

/-- Closing as many groups as are open completes the text. -/
theorem closeGroups_closings (found : Selection) (p : Nat) (groups : List OpenGroup)
    (base : Array Segment) :
    closeGroups found (closings groups.length) p groups base = .ok (.done found) := by
  have hclosed := closeGroups_closings_append found p groups [] base []
  rw [List.append_nil, List.append_nil] at hclosed
  rw [hclosed, closeGroups]

/-- Closing parentheses do not make a segment longer. -/
theorem endsTerm_closings (n : Nat) : EndsTerm (closings n) := by
  cases n with
  | zero => simp [EndsTerm, closings]
  | succ n => simp [EndsTerm, closings, List.replicate_succ]

/-! ## What has been read -/

/-- A reading that has come behind the given text, where a segment has to stand. From here it goes on
in the same way whatever the rest of the text is. -/
structure BeforeSegment (done : List Char) (r : Reading) : Prop where
  position_eq : r.position = done.length
  starts : done = [] ∨ ∃ c, done.getLast? = some c ∧ (c = '/' ∨ c = ',' ∨ c = '(')
  opened : r.groups.map OpenGroup.openedAt = openBehind [] 0 done
  reads : ∀ rest, readAll (.start (done ++ rest)) = readAll { r with rest }

/-- A reading that has come behind the given text, where a selector is complete. Behind a group the
same holds of every rest of the text, behind a segment of those that do not make it longer. -/
structure BehindSelector (done : List Char) (found : Selection) (p : Nat)
    (groups : List OpenGroup) (base : Array Segment) : Prop where
  position_eq : p = done.length
  opened : groups.map OpenGroup.openedAt = openBehind [] 0 done
  reads : ∀ rest, done.getLast? = some ')' ∨ EndsTerm rest →
    readAll (.start (done ++ rest)) = finish (closeGroups found rest p groups base)

/-- At the start nothing has been read, and a segment has to stand. -/
theorem beforeSegment_start (text : List Char) : BeforeSegment [] (.start text) :=
  ⟨rfl, Or.inl rfl, rfl, fun _ => rfl⟩

section Steps

variable {done rest : List Char} {current : Array Segment}

/-- A segment with a slash behind it leads to the next segment. -/
theorem BeforeSegment.slash {segment : Segment} {more : List Char}
    (h : BeforeSegment done ⟨more, p, groups, base, current, found⟩) :
    BeforeSegment (done ++ segment.name.toList ++ ['/'])
      ⟨rest, p + segment.name.length + 1, groups, base, current.push segment, found⟩ where
  position_eq := by
    have hposition : p = done.length := h.position_eq
    simp [hposition, String.length_toList, Nat.add_assoc]
  starts := Or.inr ⟨'/', by simp, Or.inl rfl⟩
  opened := by
    have hopened : groups.map OpenGroup.openedAt = openBehind [] 0 done := h.opened
    rw [openBehind_append, openBehind_append, openBehind_segment, hopened]
    rfl
  reads rest := by
    have htext : done ++ segment.name.toList ++ ['/'] ++ rest =
        done ++ (segment.name.toList ++ '/' :: rest) := by simp
    rw [htext, h.reads, readAll_eq_finish, round_slash, finish_more]

/-- A segment with an opening parenthesis behind it leads into a group. -/
theorem BeforeSegment.open {segment : Segment} {more : List Char}
    (h : BeforeSegment done ⟨more, p, groups, base, current, found⟩) :
    BeforeSegment (done ++ segment.name.toList ++ ['('])
      ⟨rest, p + segment.name.length + 1, ⟨base.size, p + segment.name.length⟩ :: groups,
        base ++ current.push segment, #[], found⟩ where
  position_eq := by
    have hposition : p = done.length := h.position_eq
    simp [hposition, String.length_toList, Nat.add_assoc]
  starts := Or.inr ⟨'(', by simp, Or.inr (Or.inr rfl)⟩
  opened := by
    have hposition : p = done.length := h.position_eq
    have hopened : groups.map OpenGroup.openedAt = openBehind [] 0 done := h.opened
    rw [openBehind_append, openBehind_append, openBehind_segment, ← hopened]
    simp [openBehind, hposition, String.length_toList]
  reads rest := by
    have htext : done ++ segment.name.toList ++ ['('] ++ rest =
        done ++ (segment.name.toList ++ '(' :: rest) := by simp
    rw [htext, h.reads, readAll_eq_finish, round_open, finish_more]

/-- A segment that nothing goes on completes a selector. -/
theorem BeforeSegment.complete {segment : Segment} {more : List Char}
    (h : BeforeSegment done ⟨more, p, groups, base, current, found⟩) :
    BehindSelector (done ++ segment.name.toList)
      (found.insert ⟨(base ++ current).toList, segment⟩) (p + segment.name.length) groups base where
  position_eq := by
    have hposition : p = done.length := h.position_eq
    simp [hposition, String.length_toList]
  opened := by
    have hopened : groups.map OpenGroup.openedAt = openBehind [] 0 done := h.opened
    rw [openBehind_append, openBehind_segment, hopened]
  reads rest hrest := by
    have hends : EndsTerm rest := by
      rcases hrest with hlast | hends
      · exact absurd hlast (getLast?_segment_ne done segment)
      · exact hends
    rw [List.append_assoc, h.reads, readAll_eq_finish, round_ends segment hends]

/-- A closing parenthesis closes the innermost group. -/
theorem BehindSelector.close {group : OpenGroup}
    (h : BehindSelector done found p (group :: groups) base) :
    BehindSelector (done ++ [')']) found (p + 1) groups (base.shrink group.restoreLength) where
  position_eq := by simp [h.position_eq]
  opened := by
    rw [openBehind_append, ← h.opened]
    rfl
  reads rest _ := by
    have htext : done ++ [')'] ++ rest = done ++ ')' :: rest := by simp
    rw [htext, h.reads _ (Or.inr (by simp [EndsTerm])), closeGroups_close]

/-- A comma leads to the next segment. -/
theorem BehindSelector.comma (h : BehindSelector done found p groups base) :
    BeforeSegment (done ++ [',']) ⟨rest, p + 1, groups, base, #[], found⟩ where
  position_eq := by simp [h.position_eq]
  starts := Or.inr ⟨',', by simp, Or.inr (Or.inl rfl)⟩
  opened := by
    rw [openBehind_append, ← h.opened]
    rfl
  reads rest := by
    have htext : done ++ [','] ++ rest = done ++ ',' :: rest := by simp
    rw [htext, h.reads _ (Or.inr (by simp [EndsTerm])), closeGroups_comma, finish_more]

/-! ## What has been read can be completed -/

/-- Behind a selector it is enough to close the open groups. -/
theorem BehindSelector.accepts (h : BehindSelector done found p groups base) :
    Accepts (done ++ closings groups.length) := by
  apply accepts_of_readAll
  rw [h.reads _ (Or.inr (endsTerm_closings _)), closeGroups_closings, finish]

/-- Any segment will do where one has to stand, with the open groups closed behind it. -/
theorem BeforeSegment.accepts {r : Reading} (h : BeforeSegment done r) (segment : Segment) :
    ∃ n, Accepts (done ++ segment.name.toList ++ closings n) :=
  ⟨r.groups.length, h.complete.accepts⟩

end Steps

/-! ## Where it goes wrong -/

/-- Behind the character at which the error is, nothing changes it. -/
def Lasts (text : List Char) (e : SelectorError) : Prop :=
  (∀ p, e ≠ .unclosedGroup p) → e.position < text.length →
    ∀ rest, readAll (.start (text.take (e.position + 1) ++ rest)) = .error e

variable {done rest : List Char} {e : SelectorError}

/-- An error at the next character lasts if it is there whatever comes behind that character. -/
theorem lasts_of_next {c : Char} (hposition : e.position = done.length)
    (h : ∀ others, readAll (.start (done ++ c :: others)) = .error e) :
    Lasts (done ++ c :: rest) e := by
  intro _ _ others
  have htake : (done ++ c :: rest).take (e.position + 1) = done ++ [c] := by
    rw [hposition, List.take_append, List.take_of_length_le (Nat.le_succ _)]
    simp
  rw [htake, List.append_assoc]
  exact h others

/-- What a text ends in stands right in front of what comes behind the text. -/
theorem getElem?_append_of_getLast? {c : Char} (h : done.getLast? = some c) :
    0 < done.length ∧ (done ++ rest)[done.length - 1]? = some c := by
  have hne : done ≠ [] := by
    rintro rfl
    simp at h
  have hpos := List.length_pos_iff.2 hne
  rw [List.getElem?_append_left (by omega), ← List.getLast?_eq_getElem?]
  exact ⟨hpos, h⟩

/-- A reading that meets a reserved character, or the end, in place of a segment stops there. -/
theorem readAll_missing {r : Reading} (hnone : ∀ c ∈ r.rest.head?, isReserved c = true) :
    readAll r = .error (.emptySegment r.position) := by
  have htake : r.rest.takeWhile (!isReserved ·) = [] := by
    cases hrest : r.rest with
    | nil => rfl
    | cons c others => simp [hnone c (by simp [hrest])]
  have hsegment : readSegment r.position r.rest = .error (.emptySegment r.position) := by
    simp [readSegment, htake, isSegment]
  rw [readAll_eq_finish, round, hsegment]
  rfl

/-- Where a segment has to stand and none does, it is missing. -/
theorem BeforeSegment.missing {r : Reading} (h : BeforeSegment done r)
    (hnone : ∀ c ∈ r.rest.head?, isReserved c = true) :
    Explains (done ++ r.rest) (.emptySegment r.position) ∧
      Lasts (done ++ r.rest) (.emptySegment r.position) := by
  have hposition := h.position_eq
  refine ⟨⟨?_, ?_, ?_⟩, ?_⟩
  · cases hrest : r.rest with
    | nil => exact Or.inl (by simp [hposition])
    | cons c others => exact Or.inr ⟨c, by simp [hposition], hnone c (by simp [hrest])⟩
  · rcases h.starts with rfl | ⟨c, hlast, hc⟩
    · exact Or.inl hposition
    · right
      rw [hposition]
      exact ⟨c, (getElem?_append_of_getLast? hlast).2, hc⟩
  -- the text up to the error is what has been read, so any segment completes it
  · intro segment
    rw [hposition, List.take_left]
    exact h.accepts segment
  · cases hrest : r.rest with
    | nil =>
      intro _ hlt
      simp [SelectorError.position, hposition] at hlt
    | cons c others =>
      refine lasts_of_next (e := .emptySegment r.position) hposition ?_
      intro others
      rw [h.reads]
      apply readAll_missing
      intro d hd
      apply hnone
      simpa [hrest] using hd

/-- At the end of the text the innermost group may still be open. -/
theorem BehindSelector.unclosed {group : OpenGroup}
    (h : BehindSelector done found p (group :: groups) base) :
    Explains done (.unclosedGroup group.openedAt) ∧ Lasts done (.unclosedGroup group.openedAt) := by
  have hhead : (openBehind [] 0 done).head? = some group.openedAt := by simp [← h.opened]
  refine ⟨⟨?_, hhead, groups.length + 1, by omega, h.accepts⟩, fun hnot => absurd rfl (hnot _)⟩
  -- nothing was open before the text, so the parenthesis stands in it
  rcases getElem?_of_mem_openBehind (List.mem_of_head? hhead) with hnone | ⟨_, hopen⟩
  · exact absurd hnone List.not_mem_nil
  · exact hopen

/-- Where no group is open, a closing parenthesis is one too many. -/
theorem BehindSelector.unmatched (h : BehindSelector done found p [] base) :
    Explains (done ++ ')' :: rest) (.unmatchedClose p) ∧
      Lasts (done ++ ')' :: rest) (.unmatchedClose p) := by
  refine ⟨⟨?_, ?_⟩, lasts_of_next h.position_eq fun others => ?_⟩
  · simp [h.position_eq]
  · rw [h.position_eq, List.take_left]
    simpa [closings] using h.accepts
  · rw [h.reads _ (Or.inr (by simp [EndsTerm]))]
    rfl

/-- What is neither a comma nor a closing parenthesis does not go on behind a selector. -/
theorem closeGroups_unexpected {c : Char} (hclose : c ≠ ')') (hcomma : c ≠ ',')
    (rest : List Char) :
    closeGroups found (c :: rest) p groups base = .error (.unexpectedCharacter p c) := by
  cases groups <;> simp [closeGroups, hclose, hcomma]

/-- Behind a closed group, only a comma and a closing parenthesis are expected. -/
theorem BehindSelector.unexpected {c : Char} (h : BehindSelector done found p groups base)
    (hlast : done.getLast? = some ')') (hclose : c ≠ ')') (hcomma : c ≠ ',') :
    Explains (done ++ c :: rest) (.unexpectedCharacter p c) ∧
      Lasts (done ++ c :: rest) (.unexpectedCharacter p c) := by
  obtain ⟨hpos, hparen⟩ : 0 < done.length ∧ (done ++ c :: rest)[done.length - 1]? = some ')' :=
    getElem?_append_of_getLast? hlast
  rw [← h.position_eq] at hpos hparen
  refine ⟨⟨?_, hcomma, hclose, hpos, hparen, groups.length, ?_⟩,
    lasts_of_next h.position_eq fun others => ?_⟩
  · simp [h.position_eq]
  · rw [h.position_eq, List.take_left]
    exact h.accepts
  · rw [h.reads _ (Or.inl hlast), closeGroups_unexpected hclose hcomma]
    rfl

/-- Behind a selector either another one follows, or what stands there is wrong. By induction on the
rest of the text, which closes groups as long as it goes on with parentheses. -/
theorem BehindSelector.fails (h : BehindSelector done found p groups base)
    (hrest : done.getLast? = some ')' ∨ EndsTerm rest)
    (herror : finish (closeGroups found rest p groups base) = .error e) :
    (Explains (done ++ rest) e ∧ Lasts (done ++ rest) e) ∨
      ∃ more r, rest = more ++ r.rest ∧ more ≠ [] ∧ BeforeSegment (done ++ more) r ∧
        readAll r = .error e := by
  induction rest generalizing done p groups base with
  | nil =>
    cases groups with
    | nil => simp [closeGroups, finish] at herror
    | cons group outer =>
      obtain rfl : .unclosedGroup group.openedAt = e := by simpa [closeGroups, finish] using herror
      rw [List.append_nil]
      exact Or.inl h.unclosed
  | cons c rest ih =>
    by_cases hclose : c = ')'
    · subst hclose
      cases groups with
      | nil =>
        obtain rfl : .unmatchedClose p = e := by simpa [closeGroups, finish] using herror
        exact Or.inl h.unmatched
      | cons group outer =>
        rw [closeGroups_close] at herror
        have htext : done ++ [')'] ++ rest = done ++ ')' :: rest := by simp
        rcases ih h.close (Or.inl (by simp)) herror with hwrong | ⟨more, r, rfl, _, hbefore, hread⟩
        · rw [htext] at hwrong
          exact Or.inl hwrong
        · rw [List.append_assoc] at hbefore
          exact Or.inr ⟨')' :: more, r, rfl, by simp, hbefore, hread⟩
    · by_cases hcomma : c = ','
      · subst hcomma
        rw [closeGroups_comma, finish_more] at herror
        exact Or.inr ⟨[','], _, rfl, by simp, h.comma, herror⟩
      · -- behind a segment no other character can come next, since it would make the segment longer
        have hlast : done.getLast? = some ')' := by
          refine hrest.resolve_right fun hends => ?_
          rcases hends c rfl with hc | hc
          · exact hcomma hc
          · exact hclose hc
        rw [closeGroups_unexpected hclose hcomma] at herror
        obtain rfl : .unexpectedCharacter p c = e := by simpa [finish] using herror
        exact Or.inl (h.unexpected hlast hclose hcomma)

/-- A segment is missing only in front of a reserved character or at the end. -/
theorem reserved_of_readSegment_error {text : List Char} (h : readSegment p text = .error e) :
    ∀ c ∈ text.head?, isReserved c = true := by
  intro c hc
  by_contra hnot
  have hsegment : isSegment (String.ofList (text.takeWhile (!isReserved ·))) = true := by
    cases text with
    | nil => simp at hc
    | cons d others =>
      obtain rfl : d = c := by simpa using hc
      simp [isSegment, hnot]
  simp [readSegment, hsegment] at h

/-- A reading that fails gives an error that the text explains, and that lasts. -/
theorem BeforeSegment.fails {r : Reading} (h : BeforeSegment done r) (herror : readAll r = .error e) :
    Explains (done ++ r.rest) e ∧ Lasts (done ++ r.rest) e := by
  induction hn : r.rest.length using Nat.strongRecOn generalizing r done with
  | _ n ih =>
    obtain ⟨text, p, groups, base, current, found⟩ := r
    cases hs : readSegment p text with
    | error missing =>
      have hnone := reserved_of_readSegment_error hs
      rw [readAll_missing hnone, Except.error.injEq] at herror
      rw [← herror]
      exact h.missing hnone
    | ok pair =>
      obtain ⟨segment, rest⟩ := pair
      obtain ⟨rfl, hreserved⟩ := readSegment_ok hs
      -- a selector that ends here: groups are closed, and perhaps another selector follows
      have hends : EndsTerm rest → Explains (done ++ (segment.name.toList ++ rest)) e ∧
          Lasts (done ++ (segment.name.toList ++ rest)) e := by
        intro hends
        rw [readAll_eq_finish, round_ends segment hends] at herror
        rcases h.complete.fails (Or.inr hends) herror with hwrong | ⟨more, r, rfl, hne, hbefore, hread⟩
        · rwa [List.append_assoc] at hwrong
        · have hpos := List.length_pos_iff.2 hne
          have hlt : r.rest.length < n := by
            simp only [List.length_append] at hn
            omega
          have hwrong := ih r.rest.length hlt hbefore hread rfl
          simpa only [List.append_assoc] using hwrong
      -- a selector that goes on behind the reserved character
      have hgoes : ∀ (c : Char) (others : List Char) (r : Reading), rest = c :: others →
          r.rest = others → BeforeSegment (done ++ segment.name.toList ++ [c]) r →
          readAll r = .error e → Explains (done ++ (segment.name.toList ++ rest)) e ∧
            Lasts (done ++ (segment.name.toList ++ rest)) e := by
        rintro c _ r rfl rfl hbefore hread
        have hlt : r.rest.length < n := by
          simp only [List.length_append, List.length_cons] at hn
          omega
        have hwrong := ih r.rest.length hlt hbefore hread rfl
        simpa using hwrong
      cases rest with
      | nil => exact hends (by simp [EndsTerm])
      | cons c rest =>
        have hc : isReserved c = true := hreserved c rfl
        simp only [isReserved, Bool.or_eq_true, beq_iff_eq] at hc
        rcases hc with ((rfl | rfl) | rfl) | rfl
        · rw [readAll_eq_finish, round_slash, finish_more] at herror
          exact hgoes '/' rest _ rfl rfl h.slash herror
        · exact hends (by simp [EndsTerm])
        · rw [readAll_eq_finish, round_open, finish_more] at herror
          exact hgoes '(' rest _ rfl rfl h.open herror
        · exact hends (by simp [EndsTerm])

/-- If a text is refused, the error says how far it could have been completed: at the position of the
error a segment is missing, where any segment and some closing parentheses would have completed the
text; or a character stands behind a closed group, or a closing parenthesis behind a complete text;
or the text ends, and the group named is the innermost that is open. Except in this last case no
text that goes on in another way behind that character fares better. -/
theorem parse_error (t : String) (e : SelectorError) (h : parse t = .error e) :
    Explains t.toList e ∧
      ((∀ p, e ≠ .unclosedGroup p) → e.position < t.toList.length →
        ∀ u : String, t.toList.take (e.position + 1) <+: u.toList → parse u = .error e) := by
  have hne : t.toList ≠ [] := by
    intro hnil
    simp [parse, hnil] at h
  rw [parse, if_neg hne] at h
  obtain ⟨hexplains, hlasts⟩ := (beforeSegment_start t.toList).fails h
  refine ⟨hexplains, ?_⟩
  rintro hnot hlt u ⟨others, hu⟩
  have hbegins : t.toList.take (e.position + 1) ≠ [] := by simpa using hne
  have hu' : u.toList ≠ [] := by
    rw [← hu]
    simp [hbegins]
  rw [parse, if_neg hu', ← hu]
  exact hlasts hnot hlt others

/-- A character behind a closed group. -/
theorem parse_error_behind_group :
    parse "a(b)c" = .error (.unexpectedCharacter 4 'c') ∧
      (∃ n, Accepts ("a(b)".toList ++ closings n)) ∧
      parse "a(b)c,d" = .error (.unexpectedCharacter 4 'c') := by
  have h : parse "a(b)c" = .error (.unexpectedCharacter 4 'c') := by
    rw [parse, if_neg (by decide), readAll_eq_finish]
    have hround : round (.start "a(b)c".toList) =
        .ok (.more ⟨"b)c".toList, 2, [⟨0, 1⟩], #[⟨"a", by decide⟩], #[], empty⟩) := rfl
    rw [hround, finish_more, readAll_eq_finish]
    rfl
  obtain ⟨⟨_, _, _, _, _, haccepts⟩, hlasts⟩ := parse_error _ _ h
  exact ⟨h, haccepts, hlasts (by simp) (by decide) "a(b)c,d" (by decide)⟩

end Selection

end PartialResponse
