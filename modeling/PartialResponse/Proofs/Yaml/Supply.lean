import PartialResponse.Proofs.Yaml.Taking

/-!
# PartialResponse.Proofs.Yaml.Supply — tokens on demand

`Produces` follows a text to its end while nothing is taken, and names the tokens
that are there then. `Yields` says what taking tokens one by one gives. The first
implies the second, so what a text is read as may be found by producing all of it.
-/

namespace PartialResponse.Yaml.TokenStream

/-! ## Possible keys that are too far back -/

/-- What is skipped in front of a token is never gone back to. -/
theorem le_skipSpace (rounds : Nat) (s : TokenStream) :
    s.cursor.Le (skipSpace rounds s).cursor := by
  have hspace : ∀ (c : Cursor) (test : Char → Bool), c.Le (c.skipWhile test).skipComment :=
    fun c test => (Cursor.le_skip c _).trans (Cursor.le_skipComment _)
  have hmark : ∀ c : Cursor, c.Le (if c.column = 0 ∧ c.at? '\ufeff' then c.skip 1 else c) := by
    intro c
    split
    · exact Cursor.le_skip c 1
    · exact Cursor.Le.refl c
  induction rounds generalizing s with
  | zero => exact Cursor.Le.refl _
  | succ rounds ih =>
    rw [skipSpace]
    have hnext := (hmark s.cursor).trans
      (hspace _ fun x => x == ' ' || ((s.inFlow || !s.keyAllowed) && x == '\t'))
    generalize (Cursor.skipWhile _ _).skipComment = c at hnext
    split
    -- a line break, and another round from there
    · exact (hnext.trans (Cursor.le_skipBreak c)).trans
        (ih { s with cursor := c.skipBreak, keyAllowed := s.keyAllowed || !s.inFlow })
    · exact hnext

/-- A key that is too far back stays so when the cursor moves on. -/
theorem isStale_of_le {s s' : TokenStream} {k : SimpleKey} (h : s.cursor.Le s'.cursor)
    (hk : s.isStale k = true) : s'.isStale k = true := by
  have hline := h.line
  have hindex := h.index
  simp only [isStale, Bool.or_eq_true, decide_eq_true_eq] at hk ⊢
  omega

/-- A key that is kept is not too far back. -/
theorem not_isStale_of_refreshKey {s : TokenStream} {key kept : Option SimpleKey}
    (h : s.refreshKey key = .ok kept) : ∀ k ∈ kept, s.isStale k = false := by
  cases key with
  | none =>
    rw [refreshKey, Except.ok.injEq] at h
    simp [← h]
  | some other =>
    rw [refreshKey] at h
    split at h
    · split at h
      · simp at h
      · rw [Except.ok.injEq] at h
        simp [← h]
    · next hfresh =>
      rw [Except.ok.injEq] at h
      simpa [← h] using hfresh

/-- A key that has been given up would be given up later all the same. -/
theorem refreshKey_of_le {s s' : TokenStream} {key kept : Option SimpleKey}
    (hle : s.cursor.Le s'.cursor) (h : s.refreshKey key = .ok kept) :
    s'.refreshKey kept = s'.refreshKey key := by
  cases key with
  | none =>
    rw [refreshKey, Except.ok.injEq] at h
    rw [← h]
  | some k =>
    rw [refreshKey] at h
    split at h
    · next hstale =>
      split at h
      · simp at h
      · next hfree =>
        rw [Except.ok.injEq] at h
        -- given up now, or later because it is further back still
        rw [← h, refreshKey, refreshKey, if_pos (isStale_of_le hle hstale), if_neg hfree]
    · rw [Except.ok.injEq] at h
      rw [← h]

/-- A key that can be kept or given up later can be so now. -/
theorem exists_refreshKey {s s' : TokenStream} {key kept : Option SimpleKey}
    (hle : s.cursor.Le s'.cursor) (h : s'.refreshKey key = .ok kept) :
    ∃ kept', s.refreshKey key = .ok kept' := by
  cases key with
  | none => exact ⟨none, rfl⟩
  | some k =>
    rw [refreshKey] at h ⊢
    split
    · next hstale =>
      rw [if_pos (isStale_of_le hle hstale)] at h
      split
      · next hrequired => simp [hrequired] at h
      · exact ⟨none, rfl⟩
    · exact ⟨some k, rfl⟩

/-- The stream with other possible keys at this level and at the outermost one. -/
def withKeys (s : TokenStream) (possibleKey outermostKey : Option SimpleKey) : TokenStream :=
  { s with possibleKey, outermostKey }

/-- What becomes of the keys: the one at this level and the outermost one are looked at, the others
stay. -/
theorem exists_of_refreshKeys {s s' : TokenStream} (h : s.refreshKeys = .ok s') :
    ∃ possible outermost, s.refreshKey s.possibleKey = .ok possible ∧
      s.refreshKey s.outermostKey = .ok outermost ∧ s' = s.withKeys possible outermost := by
  rw [refreshKeys] at h
  cases houtermost : s.refreshKey s.outermostKey with
  | error e => simp [houtermost] at h
  | ok outermost =>
    cases hpossible : s.refreshKey s.possibleKey with
    | error e => simp [houtermost, hpossible] at h
    | ok possible =>
      rw [houtermost, hpossible, ok_bind, ok_bind, Except.ok.injEq] at h
      exact ⟨possible, outermost, rfl, rfl, h.symm⟩

/-- Keys have no influence on what is skipped. -/
theorem skipSpace_withKeys (rounds : Nat) (s : TokenStream) (possible outermost) :
    skipSpace rounds (s.withKeys possible outermost) =
      (skipSpace rounds s).withKeys possible outermost := by
  induction rounds generalizing s with
  | zero => rfl
  | succ rounds ih =>
    have hcursor : (s.withKeys possible outermost).cursor = s.cursor := rfl
    have hallowed : (s.withKeys possible outermost).keyAllowed = s.keyAllowed := rfl
    have hflow : (s.withKeys possible outermost).inFlow = s.inFlow := rfl
    rw [skipSpace, skipSpace, hcursor, hallowed, hflow]
    generalize (Cursor.skipWhile _ _).skipComment = c
    split
    · exact ih { s with cursor := c.skipBreak, keyAllowed := s.keyAllowed || !s.inFlow }
    · rfl

/-- What is skipped has no influence on the outermost key. -/
theorem fields_skipSpace_keys (rounds : Nat) (s : TokenStream) :
    (skipSpace rounds s).outermostKey = s.outermostKey := by
  fun_induction skipSpace rounds s with
  | case1 => rfl
  | case2 _ _ _ _ _ _ ih => exact ih
  | case3 => rfl

/-- Giving up keys further back first makes no difference. -/
theorem refreshKeys_withKeys {s t : TokenStream} (hle : s.cursor.Le t.cursor) {possible outermost}
    (hpossible : s.refreshKey t.possibleKey = .ok possible)
    (houtermost : s.refreshKey t.outermostKey = .ok outermost) :
    (t.withKeys possible outermost).refreshKeys = t.refreshKeys := by
  have hsame : ∀ k, (t.withKeys possible outermost).refreshKey k = t.refreshKey k := fun _ => rfl
  have hfirst : (t.withKeys possible outermost).outermostKey = outermost := rfl
  have hsecond : (t.withKeys possible outermost).possibleKey = possible := rfl
  rw [refreshKeys, refreshKeys, hsame, hsame, hfirst, hsecond, refreshKey_of_le hle hpossible,
    refreshKey_of_le hle houtermost]
  rfl

/-- Keys may be given up before moving on to the next token. -/
theorem approach_refreshed {s s' : TokenStream} (h : s.refreshKeys = .ok s') :
    s'.approach = s.approach := by
  obtain ⟨possible, outermost, hpossible, houtermost, rfl⟩ := exists_of_refreshKeys h
  have hcursor : (s.withKeys possible outermost).cursor = s.cursor := rfl
  have hspace := fields_skipSpace (s.cursor.left + 1) s
  have hrefresh := refreshKeys_withKeys (le_skipSpace (s.cursor.left + 1) s)
    (hspace.2.1 ▸ hpossible) (fields_skipSpace_keys (s.cursor.left + 1) s ▸ houtermost)
  rw [approach, approach, hcursor, skipSpace_withKeys, hrefresh]

/-- Where the next token can be approached, keys can be given up. -/
theorem exists_refreshKeys {s s' : TokenStream} (h : s.approach = .ok s') :
    ∃ s₁, s.refreshKeys = .ok s₁ := by
  have hle := le_skipSpace (s.cursor.left + 1) s
  have hspace := fields_skipSpace (s.cursor.left + 1) s
  rw [approach] at h
  cases hrefresh : (skipSpace (s.cursor.left + 1) s).refreshKeys with
  | error e => simp [hrefresh] at h
  | ok t =>
    obtain ⟨_, _, hpossible, houtermost, -⟩ := exists_of_refreshKeys hrefresh
    rw [hspace.2.1] at hpossible
    rw [fields_skipSpace_keys] at houtermost
    obtain ⟨possible, hpossible⟩ := exists_refreshKey hle hpossible
    obtain ⟨outermost, houtermost⟩ := exists_refreshKey hle houtermost
    exact ⟨s.withKeys possible outermost, by rw [refreshKeys, hpossible, houtermost]; rfl⟩

/-- Nothing is given up where no key is too far back. -/
theorem refreshKeys_of_not_isStale {s : TokenStream} (hpossible : ∀ k ∈ s.possibleKey, s.isStale k = false)
    (houtermost : ∀ k ∈ s.outermostKey, s.isStale k = false) : s.refreshKeys = .ok s := by
  have hkept : ∀ key : Option SimpleKey, (∀ k ∈ key, s.isStale k = false) →
      s.refreshKey key = .ok key := by
    intro key hkey
    cases key with
    | none => rfl
    | some k => simp [refreshKey, hkey k rfl]
  rw [refreshKeys, hkept _ houtermost, hkept _ hpossible]
  rfl

/-! ## To the end of the text -/

/-- Whether no key is possible any more. -/
structure Finished (s : TokenStream) : Prop where
  possible : s.possibleKey = none
  outer : s.outerKeys = []
  outermost : s.outermostKey = none

/-- Whether no possible key starts with a token that has been taken, and none with an open bracket is
too far back. -/
structure Sound (s : TokenStream) : Prop where
  possible : ∀ k ∈ s.possibleKey, s.taken ≤ k.token
  outer : ∀ k ∈ s.outerKeys, s.taken ≤ k.token ∧ s.isStale k = false

/-- The tokens that are there when the rest of the text has been produced and nothing more has been
taken, and in how many steps. There are not more of these than characters, but for the last one. -/
inductive Produces : Nat → TokenStream → List Token → Prop
  | finished {s : TokenStream} (hfinished : s.Finished) : Produces 0 s s.queue
  | step {n : Nat} {s s' : TokenStream} {tokens : List Token} (hsound : s.Sound)
      (hless : n ≤ s.cursor.left) (hproduce : s.produce = .ok s') (hrest : Produces n s' tokens) :
      Produces (n + 1) s tokens

/-- At the end no key is left to be given up. -/
theorem Finished.refreshKeys_eq {s : TokenStream} (h : s.Finished) : s.refreshKeys = .ok s :=
  refreshKeys_of_not_isStale (by simp [h.possible]) (by simp [h.outermost])

/-- At the end the first token starts no key. -/
theorem Finished.headOpen_eq {s : TokenStream} (h : s.Finished) (hqueue : s.queue ≠ []) :
    s.headOpen = false := by
  simp [headOpen, h.possible, h.outer, startsKey, hqueue]

variable {n : Nat} {tokens : List Token}

/-- What is left to produce starts from a sound state. -/
theorem Produces.sound {s : TokenStream} (h : Produces n s tokens) : s.Sound := by
  cases h with
  | finished hfinished => exact ⟨by simp [hfinished.possible], by simp [hfinished.outer]⟩
  | step hsound _ _ _ => exact hsound

/-- Whether keys have been given up where they are too far back. -/
structure Refreshed (s : TokenStream) : Prop where
  fresh : ∀ k ∈ s.possibleKey, s.isStale k = false
  refreshKeys_eq : s.refreshKeys = .ok s

/-- Giving up keys leaves what is produced in the end. -/
theorem Produces.refresh {s : TokenStream} (h : Produces n s tokens) :
    ∃ s', s.refreshKeys = .ok s' ∧ Produces n s' tokens ∧ s'.Refreshed ∧
      s'.cursor = s.cursor := by
  cases h with
  | finished hfinished =>
    exact ⟨s, hfinished.refreshKeys_eq, .finished hfinished,
      ⟨by simp [hfinished.possible], hfinished.refreshKeys_eq⟩, rfl⟩
  | step hsound hless hproduce hrest =>
    -- what can be produced can be approached, and giving keys up comes first there
    have happroach : ∃ s', s.approach = .ok s' := by
      rw [produce] at hproduce
      cases ha : s.approach with
      | error e => simp [ha] at hproduce
      | ok s' => exact ⟨s', rfl⟩
    obtain ⟨_, happroach⟩ := happroach
    obtain ⟨s', hs'⟩ := exists_refreshKeys happroach
    have hsame : s'.produce = s.produce := by rw [produce, produce, approach_refreshed hs']
    obtain ⟨possible, outermost, hpossible, houtermost, rfl⟩ := exists_of_refreshKeys hs'
    have hfresh := not_isStale_of_refreshKey hpossible
    have hsound' : (s.withKeys possible outermost).Sound :=
      ⟨fun k hk => hsound.possible k (mem_of_refreshKey hpossible k hk), hsound.outer⟩
    exact ⟨_, hs', .step hsound' hless (hsame.trans hproduce) hrest,
      ⟨hfresh, refreshKeys_of_not_isStale hfresh (not_isStale_of_refreshKey houtermost)⟩, rfl⟩

/-! ## Taking a token -/

/-- What is produced in the end does not depend on whether the first token has been taken. -/
theorem Produces.of_untake {s : TokenStream} {t : Token} (h : Produces n (s.untake t) tokens)
    (htaken : 1 ≤ s.taken) (hkeys : s.KeysLeft) :
    ∃ rest, tokens = t :: rest ∧ Produces n s rest := by
  generalize hfront : s.untake t = front at h
  -- along the production: each step does the same with the first token put back
  induction h generalizing s with
  | finished hfinished =>
    subst hfront
    exact ⟨s.queue, rfl, .finished ⟨hfinished.possible, hfinished.outer, hfinished.outermost⟩⟩
  | @step n _ next _ hsound hless hproduce hrest ih =>
    subst hfront
    obtain ⟨hsame, hleft⟩ := commutes_produce t s htaken hkeys
    rw [hsame] at hproduce
    cases hs : s.produce with
    | error e => simp [hs, Except.map] at hproduce
    | ok s' =>
      obtain ⟨htaken', hkeys'⟩ := hleft s' hs
      have hnext : s'.untake t = next := by simpa [hs, Except.map] using hproduce
      obtain ⟨rest, rfl, hrest'⟩ := ih (by omega) hkeys' hnext
      have hsound' : s.Sound :=
        ⟨fun k hk => hkeys k (List.mem_append_left _ (Option.mem_toList.2 hk)),
          fun k hk => ⟨hkeys k (List.mem_append_right _ hk), (hsound.outer k hk).2⟩⟩
      exact ⟨rest, rfl, .step hsound' hless hs hrest'⟩

/-- Where no key starts with the first token, all start further on. -/
theorem lt_of_startsKey {s : TokenStream} {keys : List SimpleKey} (h : s.startsKey keys = false)
    (hkeys : ∀ k ∈ keys, s.taken ≤ k.token ∧ s.isStale k = false) :
    ∀ k ∈ keys, s.taken < k.token := by
  induction keys with
  | nil => simp
  | cons k more ih =>
    obtain ⟨hk, hmore⟩ := List.forall_mem_cons.1 hkeys
    rw [startsKey] at h
    split at h
    · next hlt => exact List.forall_mem_cons.2 ⟨hlt, ih h hmore⟩
    · next hge =>
      -- a key that starts with the first token would have been said to
      have heq : k.token = s.taken := by omega
      simp [heq, hk.2] at h

/-- Whether the first token is to be had without producing more. -/
structure Settled (s : TokenStream) : Prop extends Refreshed s where
  known : s.headOpen = false

/-- A token that is to be had starts no key, so none is lost by taking it. -/
theorem Settled.keysLeft_drop {s : TokenStream} (h : s.Settled) (hsound : s.Sound) :
    s.drop.KeysLeft := by
  have hstarts : s.startsKey (s.possibleKey.toList ++ s.outerKeys) = false :=
    (Bool.or_eq_false_iff.1 h.known).2
  refine lt_of_startsKey hstarts fun k hk => ?_
  rcases List.mem_append.1 hk with hk | hk
  · have hkey := Option.mem_toList.1 hk
    exact ⟨hsound.possible k hkey, h.fresh k hkey⟩
  · exact hsound.outer k hk

/-- A token that is to be had is the first of those produced in the end. -/
theorem Produces.of_settled {s : TokenStream} (h : Produces n s tokens) (hsettled : s.Settled) :
    ∃ rest, tokens = s.queue.headD .streamEnd :: rest ∧ Produces n s.drop rest := by
  have hqueue : s.queue ≠ [] := by simpa using (Bool.or_eq_false_iff.1 hsettled.known).1
  obtain ⟨t, queue, hqueue⟩ := List.exists_cons_of_ne_nil hqueue
  have hkeys := hsettled.keysLeft_drop h.sound
  rw [← untake_drop hqueue] at h
  -- the token taken is put back in front, and taken again
  have htaken : 1 ≤ s.drop.taken := Nat.le_add_left 1 s.taken
  simpa [hqueue] using h.of_untake htaken hkeys

/-! ## One token after the other -/

/-- Producing goes on until the first token is to be had. There are rounds enough for that. -/
theorem Produces.settle {rounds : Nat} {s : TokenStream} (h : Produces n s tokens)
    (htokens : tokens ≠ []) (hrounds : n < rounds) :
    ∃ n' s', settle rounds s = .ok s' ∧ Produces n' s' tokens ∧ s'.Settled := by
  -- a step of the production for each round
  induction rounds generalizing n s with
  | zero => omega
  | succ rounds ih =>
    obtain ⟨s', hs', hproduces, hrefreshed, -⟩ := h.refresh
    rw [TokenStream.settle, hs', ok_bind]
    cases hopen : s'.headOpen with
    | false => exact ⟨n, s', rfl, hproduces, hrefreshed, hopen⟩
    | true =>
      cases hproduces with
      -- at the end the first token is no longer open, so there is a step left
      | finished hfinished => simp [hfinished.headOpen_eq htokens] at hopen
      | step hsound hless hproduce hrest =>
        obtain ⟨n', s₂, hsettle, hs₂⟩ := ih hrest (by omega)
        exact ⟨n', s₂, by rw [if_pos rfl, hproduce, ok_bind, hsettle], hs₂⟩

/-- A token that is to be had is shown at once. -/
theorem Settled.peek_eq {s : TokenStream} (h : s.Settled) :
    s.peek = .ok (s.queue.headD .streamEnd, s) := by
  rw [peek, h.refreshKeys_eq, ok_bind, h.known]
  rfl

/-- The next token is shown, after as much has been produced as it takes. -/
theorem Produces.peek {s : TokenStream} (h : Produces n s tokens) (htokens : tokens ≠ []) :
    ∃ n' s', s.peek = .ok (s'.queue.headD .streamEnd, s') ∧ Produces n' s' tokens ∧
      s'.Settled := by
  obtain ⟨s₁, hs₁, hproduces, hrefreshed, hcursor⟩ := h.refresh
  rw [TokenStream.peek, hs₁, ok_bind]
  cases hopen : s₁.headOpen with
  | false => exact ⟨n, s₁, rfl, hproduces, hrefreshed, hopen⟩
  | true =>
    cases hproduces with
    | finished hfinished => simp [hfinished.headOpen_eq htokens] at hopen
    | step hsound hless hproduce hrest =>
      obtain ⟨n', s', hsettle, hs'⟩ := hrest.settle htokens (Nat.lt_succ_of_le hless)
      exact ⟨n', s', by rw [if_pos rfl, hproduce, ok_bind, hsettle, ok_bind], hs'⟩

/-- Whether these are the tokens that are taken next. -/
def Yields : List Token → TokenStream → Prop
  | [], _ => True
  | t :: rest, s => ∃ s', s.peek = .ok (t, s') ∧ s'.peek = .ok (t, s') ∧ Yields rest s'.drop

/-- Tokens can be taken as they are produced in the end. -/
theorem yields_of_produces {s : TokenStream} (h : Produces n s tokens) : Yields tokens s := by
  induction tokens generalizing n s with
  | nil => trivial
  | cons t rest ih =>
    obtain ⟨n', s', hpeek, hproduces, hsettled⟩ := h.peek (List.cons_ne_nil t rest)
    obtain ⟨rest', hfirst, hdrop⟩ := hproduces.of_settled hsettled
    obtain ⟨rfl, rfl⟩ := List.cons.inj hfirst
    exact ⟨s', hpeek, hsettled.peek_eq, ih hdrop⟩

end PartialResponse.Yaml.TokenStream
