import PartialResponse.Selector.Parser
import PartialResponse.Proofs.Selector.Grammar

/-!
# PartialResponse.Proofs.Selector.Parsing — reading is the grammar

Reading goes in rounds with a stack of open groups; the grammar is recursive.
The two meet in what happens behind a written selector: from any state, reading
its text is the same as adding what it stands for, under the path shared by the
open groups, and going on to close groups (`readAll_term`, `readAll_terms`).
Conversely, whatever is read to the end begins with a written list, up to the
next closing parenthesis (`exists_terms`). Main statement: `parse_eq_grammar`.
-/

namespace PartialResponse.Selection

open Grammar

/-! ## One round -/

/-- What the whole reading comes to, from what a round comes to. -/
def finish : Except SelectorError Round → Except SelectorError Selection
  | .error e => .error e
  | .ok (.done selection) => .ok selection
  | .ok (.more r) => readAll r

/-- The whole reading is its first round and what that comes to. -/
theorem readAll_eq_finish (r : Reading) : readAll r = finish (round r) := by
  rw [readAll]
  split <;> simp [finish, *]

@[simp]
theorem finish_more (r : Reading) : finish (.ok (.more r)) = readAll r := rfl

/-- Whether a text goes on where a written selector has ended. -/
def EndsTerm (text : List Char) : Prop :=
  ∀ c ∈ text.head?, c = ',' ∨ c = ')'

/-- A segment ends where a reserved character stands, or the text. -/
theorem readSegment_append (p : Nat) (segment : Segment) {rest : List Char}
    (hrest : ∀ c ∈ rest.head?, isReserved c = true) :
    readSegment p (segment.name.toList ++ rest) = .ok (segment, rest) := by
  have hspelled := segment.spelled
  have hname : ∀ c ∈ segment.name.toList, (!isReserved c) = true := by
    rw [isSegment, Bool.and_eq_true, List.all_eq_true] at hspelled
    exact hspelled.2
  have hstop : rest.takeWhile (!isReserved ·) = [] ∧ rest.dropWhile (!isReserved ·) = rest := by
    cases rest with
    | nil => exact ⟨rfl, rfl⟩
    | cons c rest =>
      have hc : isReserved c = true := hrest c rfl
      simp [hc]
  have htake : (segment.name.toList ++ rest).takeWhile (!isReserved ·) = segment.name.toList := by
    rw [List.takeWhile_append_of_pos hname, hstop.1, List.append_nil]
  have hdrop : (segment.name.toList ++ rest).dropWhile (!isReserved ·) = rest := by
    rw [List.dropWhile_append_of_pos hname, hstop.2]
  simp [readSegment, htake, hdrop, hspelled]

variable {p : Nat} {groups : List OpenGroup} {base current : Array Segment} {found : Selection}
  {rest : List Char}

/-- Behind a slash the path goes on. -/
theorem round_slash (segment : Segment) :
    round ⟨segment.name.toList ++ '/' :: rest, p, groups, base, current, found⟩ =
      .ok (.more ⟨rest, p + segment.name.length + 1, groups, base, current.push segment, found⟩) := by
  rw [round, readSegment_append p segment (by simp [isReserved])]
  rfl

/-- Behind an opening parenthesis the path becomes the shared one. -/
theorem round_open (segment : Segment) :
    round ⟨segment.name.toList ++ '(' :: rest, p, groups, base, current, found⟩ =
      .ok (.more ⟨rest, p + segment.name.length + 1,
        ⟨base.size, p + segment.name.length⟩ :: groups, base ++ current.push segment, #[],
        found⟩) := by
  rw [round, readSegment_append p segment (by simp [isReserved])]
  rfl

/-- A closing parenthesis gives back the shared path from in front of the group. -/
@[simp]
theorem closeGroups_close (group : OpenGroup) :
    closeGroups found (')' :: rest) p (group :: groups) base =
      closeGroups found rest (p + 1) groups (base.shrink group.restoreLength) := by
  rw [closeGroups, if_pos rfl]

/-- A comma starts another selector in the same group. -/
@[simp]
theorem closeGroups_comma :
    closeGroups found (',' :: rest) p groups base =
      .ok (.more ⟨rest, p + 1, groups, base, #[], found⟩) := by
  cases groups <;> simp [closeGroups]

/-- Behind the last segment of a selector groups are closed; a comma closes none. -/
theorem round_ends (segment : Segment) (hrest : EndsTerm rest) :
    round ⟨segment.name.toList ++ rest, p, groups, base, current, found⟩ =
      closeGroups (found.insert ⟨(base ++ current).toList, segment⟩) rest
        (p + segment.name.length) groups base := by
  have hreserved : ∀ c ∈ rest.head?, isReserved c = true := by
    intro c hc
    rcases hrest c hc with rfl | rfl <;> rfl
  rw [round, readSegment_append p segment hreserved]
  cases rest with
  | nil => rfl
  | cons c rest => rcases hrest c rfl with rfl | rfl <;> rfl

/-! ## From a derivation to its reading -/

/-- A path is its first segment, a slash and the other ones. -/
theorem length_pathText_cons (first next : Segment) (more : List Segment) :
    (pathText first (next :: more)).length =
      first.name.length + 1 + (pathText next more).length := by
  rw [pathText_cons, List.length_append, List.length_cons, String.length_toList]
  omega

/-- A path is read up to its end, and its selector added under the shared path. -/
theorem readAll_path (first : Segment) (more : List Segment) (hrest : EndsTerm rest) :
    readAll ⟨pathText first more ++ rest, p, groups, base, current, found⟩ =
      finish (closeGroups
        (found.insert ((Selector.ofPath first more).under (base ++ current).toList)) rest
        (p + (pathText first more).length) groups base) := by
  -- the segments kept so far grow with each slash, so they vary
  induction more generalizing first p current with
  | nil =>
    have hlast : (Selector.ofPath first []).under (base ++ current).toList =
        ⟨(base ++ current).toList, first⟩ := by
      simp [Selector.ofPath, Selector.under]
    have htext : pathText first [] = first.name.toList := by simp [pathText]
    rw [readAll_eq_finish, htext, round_ends first hrest, hlast, String.length_toList]
  | cons next more ih =>
    have hselector : (Selector.ofPath next more).under (base ++ current.push first).toList =
        (Selector.ofPath first (next :: more)).under (base ++ current).toList := by
      apply Selector.eq_of_segments_eq
      simp
    have hlength : p + first.name.length + 1 + (pathText next more).length =
        p + (pathText first (next :: more)).length := by
      rw [length_pathText_cons]
      omega
    have htext : pathText first (next :: more) ++ rest =
        first.name.toList ++ '/' :: (pathText next more ++ rest) := by
      simp [pathText_cons]
    rw [readAll_eq_finish, htext, round_slash, finish_more, ih next, hselector, hlength]

/-- Opening a group makes the segments in front of it part of the shared path. -/
theorem readAll_open (first : Segment) (more : List Segment) :
    readAll ⟨pathText first more ++ '(' :: rest, p, groups, base, current, found⟩ =
      readAll ⟨rest, p + (pathText first more).length + 1,
        ⟨base.size, p + (pathText first more).length⟩ :: groups,
        base ++ current ++ (first :: more).toArray, #[], found⟩ := by
  induction more generalizing first p current with
  | nil =>
    have htext : pathText first [] = first.name.toList := by simp [pathText]
    rw [readAll_eq_finish, htext, round_open first, String.length_toList, finish_more]
    simp
  | cons next more ih =>
    -- the first segment goes to what is current, and the rest is read behind its slash
    have hlength : p + first.name.length + 1 + (pathText next more).length =
        p + (pathText first (next :: more)).length := by
      rw [length_pathText_cons]
      omega
    have hbase : base ++ current.push first ++ (next :: more).toArray =
        base ++ current ++ (first :: next :: more).toArray := by
      apply Array.toList_inj.1
      simp
    have htext : pathText first (next :: more) ++ '(' :: rest =
        first.name.toList ++ '/' :: (pathText next more ++ '(' :: rest) := by
      simp [pathText_cons]
    rw [readAll_eq_finish, htext, round_slash, finish_more, ih next, hlength, hbase]

/-- Closing a group takes off what the group put on the shared path. -/
theorem shrink_append (base extra : Array Segment) : (base ++ extra).shrink base.size = base := by
  apply Array.toList_inj.1
  rw [Array.toList_shrink, Array.toList_append, ← Array.length_toList, List.take_left]

/-- Selectors are added in two goes. -/
theorem insertAll_append (s : Selection) (xs ys : List Selector) :
    s.insertAll (xs ++ ys) = (s.insertAll xs).insertAll ys :=
  List.foldl_append

mutual

/-- A written selector or group is read as what it stands for, from any state. -/
theorem readAll_term {p : Nat} {groups : List OpenGroup} {base : Array Segment}
    {found : Selection} {rest : List Char} (hrest : EndsTerm rest) : (term : Term) →
    readAll ⟨term.text ++ rest, p, groups, base, #[], found⟩ =
      finish (closeGroups (found.insertAll (term.expand.map (Selector.under base.toList))) rest
        (p + term.text.length) groups base)
  | .path first more => by
      rw [Term.text, readAll_path first more hrest, Array.append_empty]
      rfl
  | .group first more contents => by
      have hclose : EndsTerm (')' :: rest) := by
        intro c hc
        right
        simpa [eq_comm] using hc
      have hexpand : contents.expand.map
            (Selector.under (base ++ (first :: more).toArray).toList) =
          (Term.group first more contents).expand.map (Selector.under base.toList) := by
        rw [Term.expand, List.map_map]
        apply List.map_congr_left
        intro s _
        rw [Function.comp_apply, Selector.under_under, Array.toList_append]
      have htext : (Term.group first more contents).text ++ rest =
          pathText first more ++ '(' :: (contents.text ++ ')' :: rest) := by
        simp [Term.text]
      have hlength : p + (pathText first more).length + 1 + contents.text.length + 1 =
          p + (Term.group first more contents).text.length := by
        simp only [Term.text, List.length_append, List.length_cons, List.length_nil]
        omega
      -- what the group holds is read behind its own path, which the closing takes off again
      rw [htext, readAll_open first more, readAll_terms hclose contents, closeGroups_close,
        Array.append_empty, shrink_append, hexpand, hlength]

/-- A written list is read as what it stands for, from any state. -/
theorem readAll_terms {p : Nat} {groups : List OpenGroup} {base : Array Segment}
    {found : Selection} {rest : List Char} (hrest : EndsTerm rest) : (terms : Terms) →
    readAll ⟨terms.text ++ rest, p, groups, base, #[], found⟩ =
      finish (closeGroups (found.insertAll (terms.expand.map (Selector.under base.toList))) rest
        (p + terms.text.length) groups base)
  | .one term => by
      rw [Terms.text, readAll_term hrest term, Terms.expand]
  | .more term others => by
      -- the term ends at its comma, whatever comes behind that
      have hcomma : EndsTerm (',' :: (others.text ++ rest)) := by
        intro c hc
        left
        simpa [eq_comm] using hc
      have htext : (Terms.more term others).text ++ rest =
          term.text ++ ',' :: (others.text ++ rest) := by
        simp [Terms.text]
      have hlength : p + term.text.length + 1 + others.text.length =
          p + (Terms.more term others).text.length := by
        simp only [Terms.text, List.length_append, List.length_cons]
        omega
      rw [htext, readAll_term hcomma term, closeGroups_comma, finish_more,
        readAll_terms hrest others, Terms.expand, List.map_append, insertAll_append, hlength]

end

/-! ## From a reading to a derivation -/

/-- A segment goes up to a reserved character or to the end. -/
theorem readSegment_ok {p : Nat} {text rest : List Char} {segment : Segment}
    (h : readSegment p text = .ok (segment, rest)) :
    text = segment.name.toList ++ rest ∧ ∀ c ∈ rest.head?, isReserved c = true := by
  unfold readSegment at h
  split at h
  · simp only [Except.ok.injEq, Prod.mk.injEq] at h
    obtain ⟨rfl, rfl⟩ := h
    refine ⟨by rw [String.toList_ofList, List.takeWhile_append_dropWhile], ?_⟩
    intro c hc
    have hstop := List.head?_dropWhile_not (!isReserved ·) text
    rw [Option.mem_def.1 hc] at hstop
    simpa using hstop
  · simp at h

/-- Reading goes wrong if no segment stands at the start. -/
theorem readAll_ok {r : Reading} {s : Selection} (h : readAll r = .ok s) :
    ∃ (segment : Segment) (rest : List Char), r.rest = segment.name.toList ++ rest ∧
      ∀ c ∈ rest.head?, isReserved c = true := by
  cases hs : readSegment r.position r.rest with
  | error e => simp [readAll_eq_finish, round, hs, bind, Except.bind, finish] at h
  | ok pair => exact ⟨pair.1, pair.2, readSegment_ok hs⟩

/-- What can stand behind a group that has just been closed, if reading goes well. -/
theorem finish_closeGroups_ok {rest : List Char} {s : Selection}
    (h : finish (closeGroups found rest p groups base) = .ok s) :
    (rest = [] ∨ ∃ others, rest = ')' :: others) ∨
      ∃ others, rest = ',' :: others ∧
        readAll ⟨others, p + 1, groups, base, #[], found⟩ = .ok s := by
  cases rest with
  | nil => exact Or.inl (Or.inl rfl)
  | cons c others =>
    by_cases hclose : c = ')'
    · subst hclose
      exact Or.inl (Or.inr ⟨others, rfl⟩)
    · by_cases hcomma : c = ','
      · subst hcomma
        rw [closeGroups_comma] at h
        exact Or.inr ⟨others, rfl, h⟩
      · cases groups <;> simp [closeGroups, hclose, hcomma, finish] at h

/-- Whatever is read to the end begins with a written list, which ends with the text or where a
group is closed. -/
theorem exists_terms {r : Reading} {s : Selection} (h : readAll r = .ok s) :
    ∃ terms : Terms, ∃ rest, r.rest = terms.text ++ rest ∧
      (rest = [] ∨ ∃ others, rest = ')' :: others) := by
  -- on the length of the text, as behind a group the reading goes on with what is left of it
  induction hn : r.rest.length using Nat.strongRecOn generalizing r with
  | _ n ih =>
    obtain ⟨segment, rest, htext, hreserved⟩ := readAll_ok h
    obtain ⟨text, p, groups, base, current, found⟩ := r
    subst htext
    have hpath : (Terms.one (.path segment [])).text = segment.name.toList := by
      simp [Terms.text, Term.text, pathText]
    rw [readAll_eq_finish] at h
    cases rest with
    | nil => exact ⟨.one (.path segment []), [], by rw [hpath], Or.inl rfl⟩
    | cons c rest =>
      have hlt : rest.length < n := by
        rw [← hn, List.length_append, List.length_cons]
        omega
      have hc : isReserved c = true := hreserved c rfl
      simp only [isReserved, Bool.or_eq_true, beq_iff_eq] at hc
      rcases hc with ((rfl | rfl) | rfl) | rfl
      · -- the selector goes on behind a slash
        rw [round_slash] at h
        obtain ⟨terms, others, rfl, hothers⟩ := ih rest.length hlt h rfl
        exact ⟨terms.behind segment, others, by simp [Terms.text_behind], hothers⟩
      · -- a comma: another selector follows in the same group
        rw [round_ends segment (by simp [EndsTerm]), closeGroups_comma] at h
        obtain ⟨terms, others, rfl, hothers⟩ := ih rest.length hlt h rfl
        exact ⟨.more (.path segment []) terms, others,
          by simp [Terms.text, Term.text, pathText], hothers⟩
      · -- a group: what it holds is read first, then what stands behind it
        rw [round_open] at h
        obtain ⟨inside, behind, rfl, hbehind⟩ := ih rest.length hlt h rfl
        have hends : EndsTerm behind := by
          rcases hbehind with rfl | ⟨others, rfl⟩ <;> simp [EndsTerm]
        rw [finish_more, readAll_terms hends inside] at h
        rcases hbehind with rfl | ⟨behind, rfl⟩
        · simp [closeGroups, finish] at h
        · rw [closeGroups_close] at h
          rcases finish_closeGroups_ok h with hend | ⟨others, rfl, hread⟩
          · exact ⟨.one (.group segment [] inside), behind,
              by simp [Terms.text, Term.text, pathText], hend⟩
          · have hshorter : others.length < n := by
              simp only [List.length_append, List.length_cons] at hlt
              omega
            obtain ⟨terms, rest, rfl, hrest⟩ := ih others.length hshorter hread rfl
            exact ⟨.more (.group segment [] inside) terms, rest,
              by simp [Terms.text, Term.text, pathText], hrest⟩
      · exact ⟨.one (.path segment []), ')' :: rest, by rw [hpath], Or.inr ⟨rest, rfl⟩⟩

/-! ## Whole texts -/

/-- Adding selectors one by one keeps the first of each. -/
theorem selectors_insertAll (s : Selection) (xs : List Selector) :
    (s.insertAll xs).selectors = s.selectors ++ (xs.removeAll s.selectors).eraseDups := by
  induction xs generalizing s with
  | nil => simp [insertAll, List.removeAll]
  | cons x xs ih =>
    have hrest := ih (s.insert x)
    rw [selectors_insert] at hrest
    show ((s.insert x).insertAll xs).selectors = _
    rw [hrest]
    by_cases hx : x ∈ s.selectors
    · simp [hx, List.cons_removeAll]
    · have hremove : xs.removeAll (s.selectors ++ [x]) =
          (xs.removeAll s.selectors).filter fun y => !y == x := by
        simp [List.removeAll, List.filter_filter, Bool.and_comm, beq_eq_decide]
      rw [if_neg hx, hremove, List.cons_removeAll, if_pos (by simpa using hx), List.eraseDups_cons]
      simp

/-- Of repeated selectors the first one stays. -/
@[simp]
theorem selectors_ofList (xs : List Selector) : (ofList xs).selectors = xs.eraseDups := by
  rw [ofList, selectors_insertAll, selectors_empty, List.removeAll_nil, List.nil_append]

/-- Nothing is written with no characters. -/
theorem text_ne_nil (terms : Terms) : terms.text ≠ [] := by
  have hpath : ∀ first more, pathText first more ≠ [] := by
    intro first more hnil
    have hspelled := first.spelled
    rw [pathText, List.append_eq_nil_iff] at hnil
    simp [isSegment, hnil.1] at hspelled
  have hterm : ∀ term : Term, term.text ≠ [] := by
    intro term
    cases term <;> simp [Term.text, hpath]
  cases terms <;> simp [Terms.text, hterm]

/-- The text of a derivation is read as what the derivation stands for. -/
theorem readAll_start (terms : Terms) :
    readAll (.start terms.text) = .ok (ofList terms.expand) := by
  have hunder : terms.expand.map (Selector.under (#[] : Array Segment).toList) = terms.expand := by
    exact List.map_id terms.expand
  have hread : readAll ⟨terms.text ++ [], 0, [], #[], #[], empty⟩ =
      .ok (empty.insertAll (terms.expand.map (Selector.under (#[] : Array Segment).toList))) :=
    readAll_terms (by simp [EndsTerm]) terms
  rw [List.append_nil, hunder] at hread
  exact hread

/-- A text that is read to the end is the text of a derivation. -/
theorem exists_terms_of_readAll {text : List Char} {s : Selection}
    (h : readAll (.start text) = .ok s) : ∃ terms : Terms, terms.text = text := by
  obtain ⟨terms, rest, htext, hrest⟩ := exists_terms h
  change text = terms.text ++ rest at htext
  subst htext
  -- a parenthesis that closes no group would have been an error
  rcases hrest with rfl | ⟨others, rfl⟩
  · exact ⟨terms, (List.append_nil _).symm⟩
  · rw [Reading.start, readAll_terms (by simp [EndsTerm]) terms] at h
    simp [closeGroups, finish] at h

/-- A text of the grammar is read as what any derivation of it stands for. -/
theorem parse_terms {t : String} {terms : Terms} (h : terms.text = t.toList) :
    parse t = .ok (ofList terms.expand) := by
  rw [parse, if_neg (h ▸ text_ne_nil terms), ← h, readAll_start]

/-- A text that is read and is not empty has a derivation. -/
theorem exists_terms_of_parse {t : String} {s : Selection} (h : parse t = .ok s) (ht : t ≠ "") :
    ∃ terms : Terms, terms.text = t.toList := by
  rw [parse, if_neg (by simpa using ht)] at h
  exact exists_terms_of_readAll h

/-- Reading accepts the empty text and the texts of the grammar, and no others. The selection is what
a derivation of the text stands for, from left to right and without repetitions, and has no
selectors only for the empty text. -/
theorem parse_eq_grammar (t : String) :
    ((∃ s, parse t = .ok s) ↔ t = "" ∨ ∃ terms : Terms, terms.text = t.toList) ∧
      (∀ terms : Terms, terms.text = t.toList →
        ∃ s, parse t = .ok s ∧ s.selectors = terms.expand.eraseDups) ∧
      ∀ s, parse t = .ok s → (s.selectors = [] ↔ t = "") := by
  have hderived : ∀ terms : Terms, terms.text = t.toList →
      ∃ s, parse t = .ok s ∧ s.selectors = terms.expand.eraseDups := by
    intro terms hterms
    exact ⟨ofList terms.expand, parse_terms hterms, selectors_ofList terms.expand⟩
  refine ⟨⟨?_, ?_⟩, hderived, ?_⟩
  · rintro ⟨s, hs⟩
    by_cases ht : t = ""
    · exact Or.inl ht
    · exact Or.inr (exists_terms_of_parse hs ht)
  · rintro (rfl | ⟨terms, hterms⟩)
    · exact ⟨empty, rfl⟩
    · exact ⟨ofList terms.expand, parse_terms hterms⟩
  · intro s hs
    constructor
    · intro hnone
      by_contra ht
      obtain ⟨terms, hterms⟩ := exists_terms_of_parse hs ht
      rw [parse_terms hterms, Except.ok.injEq] at hs
      rw [← hs, selectors_ofList] at hnone
      -- every derivation stands for a selector at least
      obtain ⟨x, hx⟩ := List.exists_mem_of_ne_nil _ (Terms.expand_ne_nil terms)
      rw [← List.mem_eraseDups, hnone] at hx
      exact List.not_mem_nil hx
    · rintro rfl
      have hempty : empty = s := by simpa [parse] using hs
      rw [← hempty, selectors_empty]

/-- Groups in groups, and a selector written twice. -/
theorem parse_eq_grammar_nested :
    let a : Segment := ⟨"a", by decide⟩
    let b : Segment := ⟨"b", by decide⟩
    let c : Segment := ⟨"c", by decide⟩
    let terms : Terms := .more
      (.group a [] (.more (.path b []) (.one (.group c [a] (.one (.path b [c]))))))
      (.one (.path a [b]))
    terms.text = "a(b,c/a(b/c)),a/b".toList ∧
      ∃ s, parse "a(b,c/a(b/c)),a/b" = .ok s ∧
        s.selectors.map Selector.names = [["a", "b"], ["a", "c", "a", "b", "c"]] := by
  intro a b c terms
  have htext : terms.text = "a(b,c/a(b/c)),a/b".toList := by decide
  obtain ⟨s, hs, hselectors⟩ := (parse_eq_grammar "a(b,c/a(b/c)),a/b").2.1 terms htext
  refine ⟨htext, s, hs, ?_⟩
  rw [hselectors]
  decide

end PartialResponse.Selection
