import PartialResponse.Proofs.Yaml.Plain
import PartialResponse.Proofs.Yaml.Supply
import Mathlib.Logic.Relation

/-!
# PartialResponse.Proofs.Yaml.Steps — from one token to the next

Between two tokens outside brackets and braces, all that counts is where the cursor
is, how the collections around it are indented, and whether a key is possible. The
steps of such a stream are put together to runs, and a run to the end of the text
produces the tokens of the text.

A collection ends only when the next token is met, which may be indented like any
of the collections around. So a run stops in front of that token, with collections
still to be ended.
-/

namespace PartialResponse.Yaml.TokenStream

/-- A stream outside brackets and braces. -/
def flat (cursor : Cursor) (queue : List Token) (indent : Int) (indents : List Int)
    (keyAllowed : Bool) (possibleKey : Option SimpleKey) : TokenStream :=
  ⟨cursor, queue, 0, indent, indents, keyAllowed, possibleKey, [], [], none, none⟩

/-! ## Runs -/

/-- A step from the place of a token to the place of the next one. -/
def Step (a b : TokenStream) : Prop :=
  a.faulty = none ∧ ∃ s, a.produceHere = .ok s ∧ s.approach = .ok b ∧ s.Sound ∧ s.faulty = none ∧
    s.cursor.left < a.cursor.left

/-- Steps one after the other. -/
def Runs : TokenStream → TokenStream → Prop :=
  Relation.ReflTransGen Step

/-- A stream in good order produces by taking in what is there. -/
theorem produce_eq {s a s' : TokenStream} (happroach : s.approach = .ok a) (hfaulty : a.faulty = none)
    (hproduce : a.produceHere = .ok s') (hfaulty' : s'.faulty = none) : s.produce = .ok s' := by
  have htake : ∀ n, a.takeIn n = .ok () := by simp [takeIn, hfaulty]
  have htake' : ∀ n, s'.takeIn n = .ok () := by simp [takeIn, hfaulty']
  rw [produce, happroach, ok_bind, htake, ok_bind, hproduce, ok_bind, htake']
  rfl

/-- Going to the next token only takes text off. -/
theorem left_le_of_approach {s a : TokenStream} (h : s.approach = .ok a) :
    a.cursor.left ≤ s.cursor.left := by
  have hspace := (le_skipSpace (s.cursor.left + 1) s).left
  rw [approach] at h
  cases hrefresh : (skipSpace (s.cursor.left + 1) s).refreshKeys with
  | error e => simp [hrefresh] at h
  | ok t =>
    obtain ⟨_, _, -, -, rfl⟩ := exists_of_refreshKeys hrefresh
    rw [hrefresh, ok_bind, Except.ok.injEq] at h
    -- ending collections does not move the cursor
    have hcursor : ∀ (s : TokenStream) column, (s.unindentTo column).cursor = s.cursor := by
      intro s column
      unfold unindentTo
      split
      · rfl
      · dsimp only
        split <;> rfl
    rw [← h, hcursor]
    exact hspace

/-- A run to the end of the text produces the tokens that are there then. -/
theorem exists_produces {a b f s : TokenStream} (hrun : Runs a b) (hfaulty : b.faulty = none)
    (hend : b.produceHere = .ok f) (hfinished : f.Finished) (hfaulty' : f.faulty = none)
    (happroach : s.approach = .ok a) (hsound : s.Sound) :
    ∃ n, n ≤ s.cursor.left + 1 ∧ Produces n s f.queue := by
  -- from the end of the run, since the tokens are counted from there
  induction hrun using Relation.ReflTransGen.head_induction_on generalizing s with
  | refl =>
    exact ⟨1, by omega, .step hsound (Nat.zero_le _) (produce_eq happroach hfaulty hend hfaulty')
      (.finished hfinished)⟩
  | head hstep _ ih =>
    obtain ⟨hfaulty₁, s₁, hproduce, happroach₁, hsound₁, hfaulty₂, hless⟩ := hstep
    obtain ⟨n, hn, hproduces⟩ := ih happroach₁ hsound₁
    have hle := left_le_of_approach happroach
    exact ⟨n + 1, by omega,
      .step hsound (by omega) (produce_eq happroach hfaulty₁ hproduce hfaulty₂) hproduces⟩

variable {c : Cursor} {q : List Token} {i : Int} {is : List Int} {allowed : Bool}
  {key : Option SimpleKey} {n : Nat} {rest : List Char}

/-- Outside brackets there is no possible key but the one given. -/
theorem sound_flat : (flat c q i is allowed key).Sound :=
  ⟨fun k _ => Nat.zero_le k.token, by simp [flat]⟩

/-- A step between two tokens outside brackets and braces. -/
theorem step_flat {c' : Cursor} {q' : List Token} {i' : Int} {is' : List Int} {allowed' : Bool}
    {key' : Option SimpleKey} {b : TokenStream}
    (hproduce : (flat c q i is allowed key).produceHere = .ok (flat c' q' i' is' allowed' key'))
    (happroach : (flat c' q' i' is' allowed' key').approach = .ok b) (hless : c'.left < c.left) :
    Step (flat c q i is allowed key) b :=
  ⟨rfl, _, hproduce, happroach, sound_flat, rfl, hless⟩

/-! ## White space -/

/-- A token starts with no blank. -/
theorem not_startsToken_mark {x : Char} (h : startsToken x = true) : x ≠ ' ' ∧ x ≠ '\t' := by
  constructor
  all_goals
    rintro rfl
    exact absurd h (by decide)

/-- White space on the line in front of a token. -/
theorem skipSpace_spaces {rounds : Nat} (hrest : c.rest = List.replicate n ' ' ++ rest)
    (hhead : ∀ x ∈ rest.head?, startsToken x = true) :
    skipSpace (rounds + 1) (flat c q i is allowed key) = flat (c.skip n) q i is allowed key := by
  have hmark : c.at? '\ufeff' = false := by
    refine Cursor.at?_eq_false ?_
    cases n with
    | zero => simpa [hrest] using fun x hx => (startsToken_iff.1 (hhead x hx)).2.2.2
    | succ n => simp [hrest, List.replicate_succ]
  have hskip : c.skipWhile (fun x => x == ' ' || (!allowed && x == '\t')) = c.skip n := by
    have hspaces := @Cursor.skipWhile_eq _ _ _ (fun x => x == ' ' || (!allowed && x == '\t')) hrest
      (by simp) (fun x hx => by simp [not_startsToken_mark (hhead x hx)])
    rwa [List.length_replicate] at hspaces
  have hrest' := Cursor.rest_skip hrest
  rw [List.length_replicate] at hrest'
  -- a token stands there, and so no comment and no line break
  have hcomment : (c.skip n).skipComment = c.skip n :=
    Cursor.skipComment_eq fun x hx => (startsToken_iff.1 (hhead x (hrest' ▸ hx))).2.2.1
  have hbreak : (c.skip n).nextIs isBreak = false :=
    Cursor.nextIs_of_head fun x hx => (startsToken_iff.1 (hhead x (hrest' ▸ hx))).2.1
  simp only [skipSpace, flat, inFlow, hmark, Bool.false_eq_true, and_false, if_false, List.isEmpty_nil,
    Bool.not_true, Bool.false_or, hskip, hcomment, hbreak]

/-- The end of the line, and white space in front of a token on the next one. -/
theorem skipSpace_newline {rounds : Nat} (hrest : c.rest = '\n' :: (List.replicate n ' ' ++ rest))
    (hhead : ∀ x ∈ rest.head?, startsToken x = true) :
    skipSpace (rounds + 2) (flat c q i is allowed key) =
      flat (c.skipBreak.skip n) q i is true key := by
  have hmark : c.at? '\ufeff' = false := Cursor.at?_eq_false (by simp [hrest])
  have hskip : c.skipWhile (fun x => x == ' ' || (!allowed && x == '\t')) = c :=
    Cursor.skipWhile_of_head (by simp [hrest])
  have hcomment : c.skipComment = c := Cursor.skipComment_eq (by simp [hrest])
  have hbreak : c.nextIs isBreak = true := by simp [Cursor.nextIs, hrest, isBreak]
  have hnext := @skipSpace_spaces c.skipBreak q i is true key n rest rounds
    (Cursor.skipBreak_eq hrest rfl (by decide)).1 hhead
  rw [skipSpace]
  simp only [flat, inFlow, hmark, Bool.false_eq_true, and_false, if_false, List.isEmpty_nil,
    Bool.not_true, Bool.false_or, hskip, hcomment, hbreak, if_true, Bool.not_false, Bool.or_true]
  simpa only [flat] using hnext

/-- Going to the next token: white space, then keys that are too old, then collections that end. -/
theorem approach_flat {c' : Cursor} {allowed' : Bool} {kept : Option SimpleKey}
    (hspace : skipSpace (c.left + 1) (flat c q i is allowed key) = flat c' q i is allowed' key)
    (hkey : (flat c' q i is allowed' key).refreshKey key = .ok kept) :
    (flat c q i is allowed key).approach = .ok ((flat c' q i is allowed' kept).unindentTo c'.column) := by
  have hcursor : (flat c q i is allowed key).cursor = c := rfl
  have hnone : (flat c' q i is allowed' key).refreshKey none = .ok none := rfl
  have hrefresh : (flat c' q i is allowed' key).refreshKeys = .ok (flat c' q i is allowed' kept) := by
    have hpossible : (flat c' q i is allowed' key).possibleKey = key := rfl
    have houtermost : (flat c' q i is allowed' key).outermostKey = none := rfl
    rw [refreshKeys, houtermost, hpossible, hnone, hkey]
    rfl
  rw [approach, hcursor, hspace, hrefresh]
  rfl

/-- Whether a possible key can be given up on the next line. -/
def GoesBefore (line : Nat) (key : Option SimpleKey) : Prop :=
  ∀ k ∈ key, k.required = false ∧ k.line < line

/-- A key that need not come is given up on the next line. -/
theorem refreshKey_of_goesBefore {s : TokenStream} (h : GoesBefore s.cursor.line key) :
    s.refreshKey key = .ok none := by
  cases key with
  | none => rfl
  | some k =>
    obtain ⟨hrequired, hline⟩ := h k rfl
    simp [refreshKey, isStale, hline, hrequired]

/-- To a token on the next line. -/
theorem approach_newline (hrest : c.rest = '\n' :: (List.replicate n ' ' ++ rest))
    (hhead : ∀ x ∈ rest.head?, startsToken x = true) (hkey : GoesBefore (c.line + 1) key) :
    ∃ c', (flat c q i is allowed key).approach = .ok ((flat c' q i is true none).unindentTo n) ∧
      c.Below n rest c' := by
  have hbelow := Cursor.below_skipBreak hrest rfl (by decide)
  refine ⟨_, ?_, hbelow⟩
  obtain ⟨rounds, hrounds⟩ : ∃ rounds, c.left = rounds + 1 := by
    rw [c.left_eq, hrest, List.length_cons]
    exact ⟨_, rfl⟩
  have hspace := @skipSpace_newline c q i is allowed key n rest rounds hrest hhead
  rw [show rounds + 2 = c.left + 1 by omega] at hspace
  have hline : (c.skipBreak.skip n).line = c.line + 1 :=
    (Cursor.skipBreak_eq hrest rfl (by decide)).2.1
  rw [approach_flat hspace (refreshKey_of_goesBefore (by rw [← hline] at hkey; exact hkey)), hbelow.column_eq]

/-- To a token on the same line, or to where the stream is already. -/
theorem approach_spaces {kept : Option SimpleKey} (hrest : c.rest = List.replicate n ' ' ++ rest)
    (hhead : ∀ x ∈ rest.head?, startsToken x = true)
    (hkey : (flat (c.skip n) q i is allowed key).refreshKey key = .ok kept) :
    (flat c q i is allowed key).approach =
      .ok ((flat (c.skip n) q i is allowed kept).unindentTo (c.skip n).column) :=
  approach_flat (skipSpace_spaces hrest hhead) hkey

/-! ## Ends of collections -/

/-- No collection ends if what comes is indented as deeply. -/
theorem unindentTo_of_le {s : TokenStream} {m : Int} (h : s.indent ≤ m) : s.unindentTo m = s := by
  simp [unindentTo, h]

/-- The collections that are indented more deeply end, if one is left that is not. -/
theorem unindentTo_flat {m : Int} (h : m < i) :
    (flat c q i is allowed key).unindentTo m =
      match is.drop (is.takeWhile (m < ·)).length with
      | [] => flat c q i is allowed key
      | j :: js => flat c (q ++ .replicate ((is.takeWhile (m < ·)).length + 1) .blockEnd) j js allowed key := by
  have hnot : ((flat c q i is allowed key).inFlow || decide ((flat c q i is allowed key).indent ≤ m)) =
      false := by
    simp only [flat, inFlow, List.isEmpty_nil, Bool.not_true, Bool.false_or]
    exact decide_eq_false (Int.not_le.2 h)
  rw [unindentTo, hnot]
  rfl

/-- There is a collection that goes on, if there is one that is not indented more deeply. -/
theorem exists_drop_takeWhile {m : Int} {js : List Int} (hstop : ∃ j ∈ js, j ≤ m) :
    ∃ k ks, js.drop (js.takeWhile (m < ·)).length = k :: ks := by
  induction js with
  | nil => simp at hstop
  | cons j js ih =>
    -- the next collection goes on, or it ends as well
    by_cases hj : j ≤ m
    · exact ⟨j, js, by rw [List.takeWhile_cons_of_neg (by simpa using hj)]; rfl⟩
    · have hmore : ∃ j' ∈ js, j' ≤ m := by
        obtain ⟨j', hmem, hle⟩ := hstop
        rcases List.mem_cons.1 hmem with rfl | hmem
        · exact absurd hle hj
        · exact ⟨j', hmem, hle⟩
      rw [List.takeWhile_cons_of_pos (by simpa using hj), List.length_cons, List.drop_succ_cons]
      exact ih hmore

/-- The innermost collection ends first. -/
theorem unindentTo_cons {m j : Int} {js : List Int} (h : m < i) (hstop : ∃ j' ∈ j :: js, j' ≤ m) :
    (flat c q i (j :: js) allowed key).unindentTo m =
      (flat c (q ++ [.blockEnd]) j js allowed key).unindentTo m := by
  rw [unindentTo_flat h]
  by_cases hj : j ≤ m
  · have hnone : (j :: js).takeWhile (m < ·) = [] :=
      List.takeWhile_cons_of_neg (by simpa using hj)
    rw [hnone, unindentTo_of_le (s := flat c _ j js allowed key) hj]
    rfl
  · have hlt : m < j := Int.not_le.1 hj
    have hmore : (j :: js).takeWhile (m < ·) = j :: js.takeWhile (m < ·) :=
      List.takeWhile_cons_of_pos (by simpa using hlt)
    obtain ⟨k, ks, hks⟩ := exists_drop_takeWhile hstop
    rw [hmore, List.length_cons, List.drop_succ_cons] at hks
    rw [unindentTo_flat hlt, hmore, List.length_cons, List.drop_succ_cons, hks]
    simp [List.replicate_succ]

/-- Whether the collections lie in nothing but a document. -/
def Grounded (i : Int) (is : List Int) : Prop :=
  -1 ∈ i :: is

/-- A collection more does not take the document away. -/
theorem Grounded.cons {col : Int} (h : Grounded i is) : Grounded col (i :: is) :=
  List.mem_cons_of_mem col h

/-- A collection that is indented more deeply than what comes next ends. -/
theorem unindentTo_block {m col : Int} (hground : Grounded i is) (hm : -1 ≤ m) (hcol : m < col) :
    (flat c q col (i :: is) allowed key).unindentTo m =
      (flat c (q ++ [.blockEnd]) i is allowed key).unindentTo m :=
  unindentTo_cons hcol ⟨-1, hground, hm⟩

/-- Collections may be ended in two steps. -/
theorem unindentTo_unindentTo {m m' : Int} (hground : Grounded i is) (hm : -1 ≤ m') (hle : m' ≤ m) :
    ((flat c q i is allowed key).unindentTo m).unindentTo m' =
      (flat c q i is allowed key).unindentTo m' := by
  -- the innermost collection ends in the first step, in the second, or not at all
  induction is generalizing q i with
  | nil =>
    have hi : i = -1 := by simpa [Grounded, eq_comm] using hground
    rw [unindentTo_of_le (s := flat c q i [] allowed key) (m := m) (by simp only [flat]; omega)]
  | cons j js ih =>
    by_cases hi : i ≤ m
    · rw [unindentTo_of_le (s := flat c q i (j :: js) allowed key) hi]
    · have hground' : Grounded j js := by
        rcases List.mem_cons.1 hground with h | h
        · omega
        · exact h
      rw [unindentTo_block hground' (by omega) (by omega), unindentTo_block hground' hm (by omega),
        ih hground']

end PartialResponse.Yaml.TokenStream
