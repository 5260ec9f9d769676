import PartialResponse.Proofs.Yaml.Cursor
import PartialResponse.Yaml.Token.Stream

/-!
# PartialResponse.Proofs.Yaml.Taking — tokens are what they are, whenever they are taken

Tokens are produced on demand, and a token is not given out as long as it may turn
out to start a key. So nothing depends on when they are taken: if a text is
produced to its end first, the tokens that are there then are the tokens that
taking them one by one gives.
-/

namespace PartialResponse.Yaml.TokenStream

/-! ## Producing after a token has been taken -/

/-- The stream as it was before the token was taken. -/
def untake (t : Token) (s : TokenStream) : TokenStream :=
  { s with queue := t :: s.queue, taken := s.taken - 1 }

/-- Taking the first token of the queue and putting it back changes nothing. -/
theorem untake_drop {s : TokenStream} {t : Token} {queue : List Token} (h : s.queue = t :: queue) :
    s.drop.untake t = s := by
  obtain ⟨_, _, _, _, _, _, _, _, _, _, _⟩ := s
  subst h
  rfl

/-- Whether no possible key starts with a token that has been taken. -/
def KeysLeft (s : TokenStream) : Prop :=
  ∀ k ∈ s.possibleKey.toList ++ s.outerKeys, s.taken ≤ k.token

/-- Whether a step does the same before and after a token has been taken, as long as no possible key
starts with it. -/
def Commutes (f : TokenStream → Except Fault TokenStream) : Prop :=
  ∀ (t : Token) (s : TokenStream), 1 ≤ s.taken → s.KeysLeft →
    f (s.untake t) = (f s).map (untake t) ∧
      ∀ s', f s = .ok s' → s'.taken = s.taken ∧ s'.KeysLeft

/-- Two steps in a row commute if each does: the first leaves the number of taken tokens and the
keys as the second needs them. -/
theorem Commutes.andThen {f g : TokenStream → Except Fault TokenStream} (hf : Commutes f)
    (hg : Commutes g) : Commutes fun s => f s >>= g := by
  intro t s htaken hkeys
  obtain ⟨hsame, hleft⟩ := hf t s htaken hkeys
  cases hfs : f s with
  | error e => simp [hsame, hfs, Except.map]
  | ok s₁ =>
    obtain ⟨htaken₁, hkeys₁⟩ := hleft s₁ hfs
    obtain ⟨hsame₁, hleft₁⟩ := hg t s₁ (by omega) hkeys₁
    refine ⟨?_, ?_⟩
    · simpa [hsame, hfs, Except.map] using hsame₁
    · intro s' hs'
      obtain ⟨htaken₂, hkeys₂⟩ := hleft₁ s' (by simpa [hfs] using hs')
      -- the number of taken tokens is handed on from the first step to the second
      exact ⟨htaken₂.trans htaken₁, hkeys₂⟩

/-- A step that always succeeds. -/
theorem commutes_ok {f : TokenStream → TokenStream}
    (hsame : ∀ t s, 1 ≤ s.taken → s.KeysLeft → f (s.untake t) = (f s).untake t)
    (htaken : ∀ s, (f s).taken = s.taken) (hkeys : ∀ s, s.KeysLeft → (f s).KeysLeft) :
    Commutes fun s => .ok (f s) := by
  intro t s ht hk
  refine ⟨by simp [hsame t s ht hk, Except.map], ?_⟩
  rintro s' ⟨⟩
  exact ⟨htaken s, hkeys s hk⟩

/-- A step that first reads something on which taken tokens have no influence. -/
theorem commutes_read {α : Type} {read : TokenStream → Except Fault α}
    {f : α → TokenStream → Except Fault TokenStream} (hread : ∀ t s, read (s.untake t) = read s)
    (hf : ∀ a, Commutes (f a)) : Commutes fun s => read s >>= fun a => f a s := by
  intro t s htaken hkeys
  cases hs : read s with
  | error e => simp [hread, hs, Except.map]
  | ok a => simpa [hread, hs] using hf a t s htaken hkeys

/-- Giving up the possible key; a key that was required is an error on both sides. -/
theorem commutes_dropKey : Commutes dropKey := by
  intro t s htaken hkeys
  cases hkey : s.possibleKey with
  | none =>
    refine ⟨by simp [dropKey, untake, hkey, Except.map], ?_⟩
    intro s' hs'
    rw [dropKey, hkey, Except.ok.injEq] at hs'
    exact hs' ▸ ⟨rfl, hkeys⟩
  | some k =>
    cases hreq : k.required with
    | true => simp [dropKey, untake, hkey, hreq, Except.map]
    | false =>
      refine ⟨by simp [dropKey, untake, hkey, hreq, Except.map], ?_⟩
      intro s' hs'
      simp only [dropKey, hkey, hreq, Bool.false_eq_true, if_false, Except.ok.injEq] at hs'
      subst hs'
      -- only the outer keys are left
      exact ⟨rfl, fun k' hk' => hkeys k' (List.mem_append_right _ hk')⟩

/-- Tokens at the end, whatever else changes but the keys. -/
theorem commutes_put {f : TokenStream → TokenStream} (hsame : ∀ t s, f (s.untake t) = (f s).untake t)
    (htaken : ∀ s, (f s).taken = s.taken) (hkey : ∀ s, (f s).possibleKey = s.possibleKey)
    (houter : ∀ s, (f s).outerKeys = s.outerKeys) : Commutes fun s => .ok (f s) := by
  refine commutes_ok (fun t s _ _ => hsame t s) htaken ?_
  intro s hkeys
  rwa [KeysLeft, hkey, houter, htaken]

/-- Closing the levels of indentation that have ended only puts tokens at the end of the queue. -/
@[simp]
theorem unindentTo_untake (t : Token) (s : TokenStream) (column : Int) :
    (s.untake t).unindentTo column = (s.unindentTo column).untake t := by
  by_cases h : (s.inFlow || decide (s.indent ≤ column)) = true
  · have h' : ((s.untake t).inFlow || decide ((s.untake t).indent ≤ column)) = true := h
    rw [unindentTo, unindentTo, if_pos h, if_pos h']
  · have h' : ¬ ((s.untake t).inFlow || decide ((s.untake t).indent ≤ column)) = true := h
    have hindents : (s.untake t).indents = s.indents := rfl
    rw [unindentTo, unindentTo, if_neg h, if_neg h', hindents]
    dsimp only
    cases s.indents.drop (s.indents.takeWhile (column < ·)).length <;> rfl

/-- Closing levels of indentation changes neither the taken tokens nor the keys. -/
theorem fields_unindentTo (s : TokenStream) (column : Int) :
    (s.unindentTo column).taken = s.taken ∧ (s.unindentTo column).possibleKey = s.possibleKey ∧
      (s.unindentTo column).outerKeys = s.outerKeys := by
  unfold unindentTo
  split
  · exact ⟨rfl, rfl, rfl⟩
  · dsimp only
    split <;> exact ⟨rfl, rfl, rfl⟩

/-- Closing the levels of indentation above a column that the taken token does not change. -/
theorem commutes_unindentTo (column : TokenStream → Int)
    (hcolumn : ∀ t s, column (s.untake t) = column s) :
    Commutes fun s => .ok (s.unindentTo (column s)) :=
  commutes_put (fun t s => by rw [hcolumn, unindentTo_untake])
    (fun s => (fields_unindentTo s _).1) (fun s => (fields_unindentTo s _).2.1)
    fun s => (fields_unindentTo s _).2.2

/-- Opening a level of indentation, wherever the token that marks it goes. -/
theorem indentTo_untake (t : Token) (s : TokenStream) (column : Nat)
    {insert insert' : TokenStream → TokenStream}
    (hinsert : insert' { s.untake t with indents := s.indent :: s.indents, indent := column } =
      (insert { s with indents := s.indent :: s.indents, indent := column }).untake t) :
    (s.untake t).indentTo column insert' = (s.indentTo column insert).untake t := by
  by_cases h : (!s.inFlow && decide (s.indent < column)) = true
  · have h' : (!(s.untake t).inFlow && decide ((s.untake t).indent < column)) = true := h
    rw [indentTo, indentTo, if_pos h, if_pos h']
    exact hinsert
  · have h' : ¬ (!(s.untake t).inFlow && decide ((s.untake t).indent < column)) = true := h
    rw [indentTo, indentTo, if_neg h, if_neg h']

/-- Opening a level of indentation changes neither the taken tokens nor the keys, if putting the
token that marks it does not. -/
theorem fields_indentTo (s : TokenStream) (column : Nat) (insert : TokenStream → TokenStream)
    (hinsert : ∀ s, (insert s).taken = s.taken ∧ (insert s).possibleKey = s.possibleKey ∧
      (insert s).outerKeys = s.outerKeys) :
    (s.indentTo column insert).taken = s.taken ∧
      (s.indentTo column insert).possibleKey = s.possibleKey ∧
      (s.indentTo column insert).outerKeys = s.outerKeys := by
  unfold indentTo
  split
  · exact hinsert _
  · exact ⟨rfl, rfl, rfl⟩

/-- A new possible key starts with the next token, so with none that has been taken. -/
theorem commutes_noteKey : Commutes noteKey := by
  have hnote : Commutes fun s => .ok { s with possibleKey := some {
      required := !s.inFlow && s.indent == s.cursor.column
      token := s.taken + s.queue.length
      index := s.cursor.index
      line := s.cursor.line
      column := s.cursor.column } } := by
    refine commutes_ok ?_ (fun _ => rfl) ?_
    · intro t s htaken _
      -- the token counts in the queue now and not among the taken ones, so the key has the same
      -- number
      have hnumber : s.taken - 1 + (s.queue.length + 1) = s.taken + s.queue.length := by omega
      simp [untake, inFlow, hnumber]
    · intro s hkeys k hk
      rcases List.mem_append.1 hk with hk | hk
      · obtain rfl := Option.mem_some.1 (Option.mem_toList.1 hk)
        exact Nat.le_add_right _ _
      · exact hkeys k (List.mem_append_right _ hk)
  intro t s htaken hkeys
  have hstep := commutes_dropKey.andThen hnote t s htaken hkeys
  cases hallowed : s.keyAllowed with
  | true =>
    have hallowed' : (s.untake t).keyAllowed = true := hallowed
    rw [noteKey, noteKey, hallowed, hallowed', if_pos rfl]
    exact hstep
  | false =>
    have hallowed' : (s.untake t).keyAllowed = false := hallowed
    rw [noteKey, noteKey, hallowed, hallowed']
    refine ⟨rfl, ?_⟩
    rintro s' ⟨⟩
    exact ⟨rfl, hkeys⟩

/-- A token in front of one that has not been taken. -/
theorem putAt_untake {t : Token} {s : TokenStream} {number : Nat} (htaken : 1 ≤ s.taken)
    (hnumber : s.taken ≤ number) (x : Token) :
    (s.untake t).putAt number x = (s.putAt number x).untake t := by
  -- the place in the queue is one further back, because the token put back stands in front
  have hplace : number - (s.taken - 1) = number - s.taken + 1 := by omega
  simp [putAt, untake, hplace]

/-! ### Each kind of token -/

/-- Closing every level of indentation, as a directive, a marker and the end of the text do. -/
theorem commutes_unindentAll : Commutes fun s => .ok (s.unindentTo (-1)) :=
  commutes_unindentTo (fun _ => -1) fun _ _ => rfl

/-- The end of the text. -/
theorem commutes_putEnd : Commutes putEnd := by
  -- the end counts as the start of a line
  have hline : Commutes fun s => .ok (if s.cursor.column = 0 then s else
      { s with cursor := { s.cursor with line := s.cursor.line + 1, column := 0 } }) := by
    apply commutes_put
    · intro t s
      dsimp only [untake]
      split <;> rfl
    all_goals
      intro s
      split <;> rfl
  have hput : Commutes fun s => .ok ({ s with keyAllowed := false }.put .streamEnd) :=
    commutes_put (fun _ _ => rfl) (fun _ => rfl) (fun _ => rfl) fun _ => rfl
  exact hline.andThen (commutes_unindentAll.andThen (commutes_dropKey.andThen hput))

/-- A directive, which is read from the text alone. -/
theorem commutes_putDirective : Commutes putDirective := by
  have hread : Commutes fun s => readDirective (s.cursor.skip 1) >>= fun a =>
      .ok { s.put a.1 with cursor := a.2, keyAllowed := false } :=
    commutes_read (fun _ _ => rfl) fun _ =>
      commutes_put (fun _ _ => rfl) (fun _ => rfl) (fun _ => rfl) fun _ => rfl
  exact commutes_unindentAll.andThen (commutes_dropKey.andThen hread)

/-- The markers of a document's start and end. -/
theorem commutes_putMarker (token : Token) : Commutes (putMarker · token) := by
  have hput : Commutes fun s => .ok { s.putSkip 3 token with keyAllowed := false } :=
    commutes_put (fun _ _ => rfl) (fun _ => rfl) (fun _ => rfl) fun _ => rfl
  exact commutes_unindentAll.andThen (commutes_dropKey.andThen hput)

/-- An opening bracket. A possible key that starts with it becomes an outer one. -/
theorem commutes_putOpen (token : Token) : Commutes (putOpen · token) := by
  refine commutes_noteKey.andThen (commutes_ok (fun _ _ _ _ => rfl) (fun _ => rfl) ?_)
  intro s hkeys k hk
  exact hkeys k (by simpa using hk)

/-- A closing bracket. The keys that are left are among those there were before. -/
theorem commutes_putClose (token : Token) : Commutes (putClose · token) := by
  refine commutes_dropKey.andThen (commutes_ok ?_ ?_ ?_)
  · intro t s _ _
    cases hopenings : s.openings with
    | nil => simp [untake, hopenings, putSkip, put]
    | cons keyed more => simp [untake, hopenings, putSkip, put, isStale]
  · intro s
    cases s.openings <;> rfl
  · intro s hkeys k hk
    cases hopenings : s.openings with
    | nil => exact hkeys k (by simpa [hopenings, putSkip, put] using hk)
    | cons keyed more =>
      -- the key that may start with the bracket is one of the outer keys
      refine hkeys k (List.mem_append_right _ ?_)
      simp only [hopenings, putSkip, put, List.mem_append, Option.mem_toList] at hk
      cases keyed with
      | false => simpa using hk
      | true =>
        rcases hk with hk | hk
        · have hhead : s.outerKeys.head? = some k ∧ s.isStale k = false := by simpa using hk
          exact List.mem_of_head? hhead.1
        · exact List.mem_of_mem_tail (by simpa using hk)

/-- A comma inside brackets. -/
theorem commutes_putFlowEntry : Commutes putFlowEntry :=
  commutes_dropKey.andThen
    (commutes_put (fun _ _ => rfl) (fun _ => rfl) (fun _ => rfl) fun _ => rfl)

/-- A choice that no taken token has a part in. -/
theorem commutes_ite {p : TokenStream → Prop} [DecidablePred p]
    {f g : TokenStream → Except Fault TokenStream} (hp : ∀ t s, p (s.untake t) ↔ p s)
    (hf : Commutes f) (hg : Commutes g) : Commutes fun s => if p s then f s else g s := by
  intro t s htaken hkeys
  by_cases h : p s
  · simpa [hp, h] using hf t s htaken hkeys
  · simpa [hp, h] using hg t s htaken hkeys

/-- A step that always fails. -/
theorem commutes_error (e : Fault) : Commutes fun _ => .error e := by
  intro t s _ _
  exact ⟨rfl, fun s' hs' => by simp at hs'⟩

/-- A step that does nothing. -/
theorem commutes_same : Commutes fun s => .ok s :=
  commutes_put (fun _ _ => rfl) (fun _ => rfl) (fun _ => rfl) fun _ => rfl

/-- The start of a block collection, where one may start. -/
theorem commutes_putStart (token : Token) : Commutes (putStart · token) := by
  have hput : Commutes fun s => .ok (s.indentTo s.cursor.column (·.put token)) := by
    have hfields := fun s : TokenStream =>
      fields_indentTo s s.cursor.column (·.put token) fun _ => ⟨rfl, rfl, rfl⟩
    exact commutes_put (fun t s => indentTo_untake t s _ rfl) (fun s => (hfields s).1)
      (fun s => (hfields s).2.1) fun s => (hfields s).2.2
  exact commutes_ite (fun _ _ => Iff.rfl) commutes_same
    (commutes_ite (fun _ _ => Iff.rfl) hput (commutes_error _))

/-- An entry of a block sequence. -/
theorem commutes_putBlockEntry : Commutes putBlockEntry :=
  (commutes_putStart _).andThen (commutes_dropKey.andThen
    (commutes_put (fun _ _ => rfl) (fun _ => rfl) (fun _ => rfl) fun _ => rfl))

/-- An explicit key. -/
theorem commutes_putKey : Commutes putKey :=
  (commutes_putStart _).andThen (commutes_dropKey.andThen
    (commutes_put (fun _ _ => rfl) (fun _ => rfl) (fun _ => rfl) fun _ => rfl))

/-- A value. The marker of a key it ends goes in front of the key's first token, which no taken
token comes after. -/
theorem commutes_putValue : Commutes putValue := by
  intro t s htaken hkeys
  cases hkey : s.possibleKey with
  | none =>
    have hput : Commutes fun s => .ok { s.putSkip 1 .value with keyAllowed := !s.inFlow } :=
      commutes_put (fun _ _ => rfl) (fun _ => rfl) (fun _ => rfl) fun _ => rfl
    have hkey' : (s.untake t).possibleKey = none := hkey
    have hstep := ((commutes_putStart .blockMappingStart).andThen hput) t s htaken hkeys
    rw [putValue, putValue, hkey, hkey']
    exact hstep
  | some k =>
    -- the tokens of the key have not been taken, so its marker comes behind the token taken
    have hbehind : s.taken ≤ k.token := hkeys k (by simp [hkey])
    have hkey' : (s.untake t).possibleKey = some k := hkey
    have hfields := fields_indentTo (s.putAt k.token .key) k.column
      (·.putAt k.token .blockMappingStart) fun _ => ⟨rfl, rfl, rfl⟩
    have hindent : ((s.untake t).putAt k.token .key).indentTo k.column
          (·.putAt k.token .blockMappingStart) =
        ((s.putAt k.token .key).indentTo k.column (·.putAt k.token .blockMappingStart)).untake t := by
      rw [putAt_untake htaken hbehind]
      refine indentTo_untake t _ _ ?_
      exact @putAt_untake t { s.putAt k.token .key with
        indents := (s.putAt k.token .key).indent :: (s.putAt k.token .key).indents
        indent := k.column } k.token htaken hbehind _
    rw [putValue, putValue, hkey, hkey']
    dsimp only
    rw [hindent]
    generalize (s.putAt k.token .key).indentTo k.column (·.putAt k.token .blockMappingStart) = next
      at hfields
    refine ⟨rfl, ?_⟩
    rintro s' ⟨⟩
    refine ⟨hfields.1, ?_⟩
    intro k' hk'
    have houter : k' ∈ next.outerKeys := hk'
    have hlast : next.taken ≤ k'.token := by
      rw [hfields.1]
      exact hkeys k' (List.mem_append_right _ (hfields.2.2 ▸ houter))
    exact hlast

/-- An anchor or an alias. -/
theorem commutes_putAnchor (token : String → Token) : Commutes (putAnchor · token) := by
  have hread : Commutes fun s => readAnchorName (s.cursor.skip 1) >>= fun a =>
      .ok { s.put (token a.1) with cursor := a.2, keyAllowed := false } :=
    commutes_read (fun _ _ => rfl) fun _ =>
      commutes_put (fun _ _ => rfl) (fun _ => rfl) (fun _ => rfl) fun _ => rfl
  exact commutes_noteKey.andThen hread

/-- A tag. -/
theorem commutes_putTag : Commutes putTag := by
  have hread : Commutes fun s => readTag s.inFlow s.cursor >>= fun a =>
      .ok { s.put a.1 with cursor := a.2, keyAllowed := false } :=
    commutes_read (fun _ _ => rfl) fun _ =>
      commutes_put (fun _ _ => rfl) (fun _ => rfl) (fun _ => rfl) fun _ => rfl
  exact commutes_noteKey.andThen hread

/-- A block scalar, literal or folded. None of its tokens can start a key. -/
theorem commutes_putBlockScalar (literal : Bool) : Commutes (putBlockScalar · literal) := by
  have hread : Commutes fun s => readBlock literal s.indent (s.cursor.skip 1) >>= fun a =>
      .ok { s.put (.scalar (String.ofList a.1) false) with cursor := a.2, keyAllowed := true } :=
    commutes_read (fun _ _ => rfl) fun _ =>
      commutes_put (fun _ _ => rfl) (fun _ => rfl) (fun _ => rfl) fun _ => rfl
  exact commutes_dropKey.andThen hread

/-- A quoted scalar. -/
theorem commutes_putQuoted (single : Bool) : Commutes (putQuoted · single) := by
  have hread : Commutes fun s =>
      readQuoted single ((s.cursor.skip 1).left + 1) (s.cursor.skip 1) .none [] >>= fun a =>
      .ok { s.put (.scalar (String.ofList a.1) false) with cursor := a.2, keyAllowed := false } :=
    commutes_read (fun _ _ => rfl) fun _ =>
      commutes_put (fun _ _ => rfl) (fun _ => rfl) (fun _ => rfl) fun _ => rfl
  exact commutes_noteKey.andThen hread

/-- A plain scalar. -/
theorem commutes_putPlain : Commutes putPlain := by
  have hread : Commutes fun s =>
      readPlain s.inFlow (s.indent + 1) (s.cursor.left + 1) s.cursor .none [] >>= fun a =>
      .ok { s.put (.scalar (String.ofList a.1) true) with cursor := a.2.2, keyAllowed := a.2.1 } :=
    commutes_read (fun _ _ => rfl) fun _ =>
      commutes_put (fun _ _ => rfl) (fun _ => rfl) (fun _ => rfl) fun _ => rfl
  exact commutes_noteKey.andThen hread

/-! ### The next token -/

/-- The token that starts at the cursor, whichever kind it is: the choice reads the text, the
indentation and the depth of brackets only. -/
theorem commutes_produceHere : Commutes produceHere := by
  intro t s htaken hkeys
  cases hrest : s.cursor.rest with
  | nil =>
    have hrest' : (s.untake t).cursor.rest = [] := hrest
    simpa [produceHere, hrest, hrest'] using commutes_putEnd t s htaken hkeys
  | cons x rest =>
    -- the cursor is the same on both sides, so both take the same branch
    have hchoice : Commutes fun s =>
        if s.cursor.column = 0 ∧ x = '%' then s.putDirective
        else if s.cursor.atMarker '-' then s.putMarker .documentStart
        else if s.cursor.atMarker '.' then s.putMarker .documentEnd
        else if x = '[' then s.putOpen .flowSequenceStart
        else if x = '{' then s.putOpen .flowMappingStart
        else if x = ']' then s.putClose .flowSequenceEnd
        else if x = '}' then s.putClose .flowMappingEnd
        else if x = ',' then s.putFlowEntry
        else if x = '-' && s.cursor.blankAfter 1 then s.putBlockEntry
        else if x = '?' && (s.inFlow || s.cursor.blankAfter 1) then s.putKey
        else if x = ':' && (s.inFlow || s.cursor.blankAfter 1) then s.putValue
        else if x = '*' then s.putAnchor .alias
        else if x = '&' then s.putAnchor .anchor
        else if x = '!' then s.putTag
        else if x = '|' && !s.inFlow then s.putBlockScalar true
        else if x = '>' && !s.inFlow then s.putBlockScalar false
        else if x = '\'' then s.putQuoted true
        else if x = '"' then s.putQuoted false
        else if s.atPlain then s.putPlain
        else .error .noToken := by
      refine commutes_ite (fun _ _ => Iff.rfl) commutes_putDirective ?_
      refine commutes_ite (fun _ _ => Iff.rfl) (commutes_putMarker _) ?_
      refine commutes_ite (fun _ _ => Iff.rfl) (commutes_putMarker _) ?_
      refine commutes_ite (fun _ _ => Iff.rfl) (commutes_putOpen _) ?_
      refine commutes_ite (fun _ _ => Iff.rfl) (commutes_putOpen _) ?_
      refine commutes_ite (fun _ _ => Iff.rfl) (commutes_putClose _) ?_
      refine commutes_ite (fun _ _ => Iff.rfl) (commutes_putClose _) ?_
      refine commutes_ite (fun _ _ => Iff.rfl) commutes_putFlowEntry ?_
      refine commutes_ite (fun _ _ => Iff.rfl) commutes_putBlockEntry ?_
      refine commutes_ite (fun _ _ => Iff.rfl) commutes_putKey ?_
      refine commutes_ite (fun _ _ => Iff.rfl) commutes_putValue ?_
      refine commutes_ite (fun _ _ => Iff.rfl) (commutes_putAnchor _) ?_
      refine commutes_ite (fun _ _ => Iff.rfl) (commutes_putAnchor _) ?_
      refine commutes_ite (fun _ _ => Iff.rfl) commutes_putTag ?_
      refine commutes_ite (fun _ _ => Iff.rfl) (commutes_putBlockScalar _) ?_
      refine commutes_ite (fun _ _ => Iff.rfl) (commutes_putBlockScalar _) ?_
      refine commutes_ite (fun _ _ => Iff.rfl) (commutes_putQuoted _) ?_
      refine commutes_ite (fun _ _ => Iff.rfl) (commutes_putQuoted _) ?_
      exact commutes_ite (fun _ _ => Iff.rfl) commutes_putPlain (commutes_error _)
    have hrest' : (s.untake t).cursor.rest = x :: rest := hrest
    simpa [produceHere, hrest, hrest'] using hchoice t s htaken hkeys

/-- Blanks, comments and line breaks in front of a token. -/
@[simp]
theorem skipSpace_untake (t : Token) (rounds : Nat) (s : TokenStream) :
    skipSpace rounds (s.untake t) = (skipSpace rounds s).untake t := by
  induction rounds generalizing s with
  | zero => rfl
  | succ rounds ih =>
    have hcursor : (s.untake t).cursor = s.cursor := rfl
    have hallowed : (s.untake t).keyAllowed = s.keyAllowed := rfl
    have hflow : (s.untake t).inFlow = s.inFlow := rfl
    rw [skipSpace, skipSpace, hcursor, hallowed, hflow]
    generalize (Cursor.skipWhile _ _).skipComment = c
    split
    · -- a line break: another round from the next line
      exact ih { s with cursor := c.skipBreak, keyAllowed := s.keyAllowed || !s.inFlow }
    · rfl

/-- What is skipped in front of a token changes neither the taken tokens nor the keys. -/
theorem fields_skipSpace (rounds : Nat) (s : TokenStream) :
    (skipSpace rounds s).taken = s.taken ∧ (skipSpace rounds s).possibleKey = s.possibleKey ∧
      (skipSpace rounds s).outerKeys = s.outerKeys := by
  fun_induction skipSpace rounds s with
  | case1 => exact ⟨rfl, rfl, rfl⟩
  | case2 _ _ _ _ _ _ ih => exact ih
  | case3 => exact ⟨rfl, rfl, rfl⟩

/-- A possible key is given up or stays. -/
theorem mem_of_refreshKey {s : TokenStream} {key kept : Option SimpleKey}
    (h : s.refreshKey key = .ok kept) : ∀ k ∈ kept, k ∈ key := by
  intro k hk
  cases key with
  | none =>
    rw [refreshKey, Except.ok.injEq] at h
    exact h ▸ hk
  | some other =>
    rw [refreshKey] at h
    split at h
    · split at h
      · simp at h
      · rw [← Except.ok.inj h] at hk
        simp at hk
    · rw [← Except.ok.inj h] at hk
      exact hk

/-- Giving up the keys that have become too long or end on another line. -/
theorem commutes_refreshKeys : Commutes refreshKeys := by
  intro t s htaken hkeys
  -- whether a key is stale is read off the cursor alone
  have hsame : ∀ k, (s.untake t).refreshKey k = s.refreshKey k := fun _ => rfl
  have houtermost : (s.untake t).outermostKey = s.outermostKey := rfl
  have hpossible : (s.untake t).possibleKey = s.possibleKey := rfl
  rw [refreshKeys, refreshKeys, hsame, hsame, houtermost, hpossible]
  cases hfirst : s.refreshKey s.outermostKey with
  | error e => simp [Except.map]
  | ok outermostKey =>
    cases hsecond : s.refreshKey s.possibleKey with
    | error e => simp [Except.map]
    | ok possibleKey =>
      refine ⟨rfl, ?_⟩
      rintro s' ⟨⟩
      refine ⟨rfl, ?_⟩
      intro k hk
      rcases List.mem_append.1 hk with hk | hk
      · have hkept := mem_of_refreshKey hsecond k (Option.mem_toList.1 hk)
        exact hkeys k (List.mem_append_left _ (Option.mem_toList.2 hkept))
      · exact hkeys k (List.mem_append_right _ hk)

/-- All that is done before a token is produced. -/
theorem commutes_approach : Commutes approach := by
  have hspace : Commutes fun s => .ok (skipSpace (s.cursor.left + 1) s) :=
    commutes_put (fun t s => skipSpace_untake t _ s) (fun s => (fields_skipSpace _ s).1)
      (fun s => (fields_skipSpace _ s).2.1) fun s => (fields_skipSpace _ s).2.2
  exact hspace.andThen (commutes_refreshKeys.andThen
    (commutes_unindentTo (fun s => s.cursor.column) fun _ _ => rfl))

/-- Producing the next token is the same before and after a token has been taken. -/
theorem commutes_produce : Commutes produce := by
  have hlast : Commutes fun s => s.takeIn 1 >>= fun _ => .ok s :=
    commutes_read (fun _ _ => rfl) fun _ => commutes_same
  have hhere : Commutes fun s => s.takeIn 4 >>= fun _ => s.produceHere >>= fun s =>
      s.takeIn 1 >>= fun _ => .ok s :=
    commutes_read (fun _ _ => rfl) fun _ => commutes_produceHere.andThen hlast
  exact commutes_approach.andThen hhere

end PartialResponse.Yaml.TokenStream
