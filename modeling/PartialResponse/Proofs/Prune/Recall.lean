import PartialResponse.Proofs.Prune.Cache

/-!
# PartialResponse.Proofs.Prune.Recall — many questions to one cache

Each question brings a test of its own, so two questions about one path may have
tests that differ. Asked one after the other of a cache that was empty, all
questions about a path are answered by the first one's test (`Answered`).

Tests may have effects. A run with such tests makes the test of the first question
about each path, in the order of the questions, and no other; from there on it is
a run with the answers that were found (`Asked.askAllM_eq`).
-/

namespace PartialResponse

/-- A question for a cache: the path, and the test that is made if no answer is known. -/
structure Question (Test : Type) where
  path : List String
  test : Test

namespace Question

variable {Test : Type}

/-- Those of the questions whose path is neither among the paths given nor that of a question
before. -/
def firstsAfter (earlier : List (List String)) : List (Question Test) → List (Question Test)
  | [] => []
  | question :: rest =>
    let later := firstsAfter (earlier ++ [question.path]) rest
    if question.path ∈ earlier then later else question :: later

/-- Those of the questions whose path no question before is about. -/
def firsts (questions : List (Question Test)) : List (Question Test) :=
  firstsAfter [] questions

/-- The paths that are new are those that come in the questions and not before. -/
theorem mem_path_firstsAfter {earlier : List (List String)} {questions : List (Question Test)}
    {path : List String} :
    path ∈ (firstsAfter earlier questions).map (·.path) ↔
      path ∉ earlier ∧ path ∈ questions.map (·.path) := by
  induction questions generalizing earlier with
  | nil => simp [firstsAfter]
  | cons question rest ih =>
    have hgrown : path ∈ earlier ++ [question.path] ↔ path ∈ earlier ∨ path = question.path := by
      rw [List.mem_append, List.mem_singleton]
    rw [firstsAfter, List.map_cons, List.mem_cons]
    by_cases hold : question.path ∈ earlier
    · have hne : path ∉ earlier → path ≠ question.path := fun hnew heq => hnew (heq ▸ hold)
      rw [if_pos hold, ih, hgrown]
      tauto
    · have hnew : path = question.path → path ∉ earlier := fun heq => heq ▸ hold
      rw [if_neg hold, List.map_cons, List.mem_cons, ih, hgrown]
      tauto

/-- Each path is new only once. -/
theorem nodup_path_firstsAfter (earlier : List (List String)) (questions : List (Question Test)) :
    ((firstsAfter earlier questions).map (·.path)).Nodup := by
  induction questions generalizing earlier with
  | nil => exact List.nodup_nil
  | cons question rest ih =>
    rw [firstsAfter]
    split
    case isTrue => exact ih _
    case isFalse =>
      refine List.nodup_cons.2 ⟨fun hlater => ?_, ih _⟩
      -- further on this path is among the earlier ones
      exact (mem_path_firstsAfter.1 hlater).1 (List.mem_append_right _ (List.mem_singleton_self _))

/-- The path and what the test finds. -/
def answer {m : Type → Type} [Monad m] (question : Question (Unit → m Bool)) :
    m (List String × Bool) := do
  let found ← question.test ()
  pure (question.path, found)

/-- The question about the same path, with the answer that has been found for it. A run finds one
for each path that is asked about (`mem_path_firstsAfter`), so the default is not taken. -/
def settled (found : List (List String × Bool)) (question : Question Test) :
    Question (Unit → Bool) :=
  ⟨question.path, fun _ => (found.lookup question.path).getD false⟩

/-- What the first of the questions about a path finds. -/
def firstAnswer? (questions : List (Question (Unit → Bool))) (path : List String) : Option Bool :=
  (questions.find? (·.path = path)).map (·.test ())

/-- Questions that come later answer for the paths that are new. -/
theorem firstAnswer?_append (before behind : List (Question (Unit → Bool))) (path : List String) :
    firstAnswer? (before ++ behind) path =
      (firstAnswer? before path).or (firstAnswer? behind path) := by
  simp only [firstAnswer?, List.find?_append, Option.map_or]

/-- One question answers for its path only. -/
theorem firstAnswer?_singleton (question : Question (Unit → Bool)) (path : List String) :
    firstAnswer? [question] path =
      if question.path = path then some (question.test ()) else none := by
  by_cases h : question.path = path <;> simp [firstAnswer?, h]

end Question

open Question

namespace MatchCache

variable {cache : MatchCache} {path : List String}

/-! ## Tests without effects -/

/-- Asks one question after the other. The tests may have effects. -/
def askAllM {m : Type → Type} [Monad m] (cache : MatchCache) :
    List (Question (Unit → m Bool)) → m (List Bool × MatchCache)
  | [] => pure ([], cache)
  | question :: rest => do
    let (answer, cache) ← cache.askM question.path question.test
    let (answers, cache) ← cache.askAllM rest
    pure (answer :: answers, cache)

/-- Asks one question after the other, with tests that only answer. -/
def askAll (cache : MatchCache) (questions : List (Question (Unit → Bool))) :
    List Bool × MatchCache :=
  Id.run (cache.askAllM questions)

/-- The first question is asked of the cache, the others of what it leaves. -/
theorem askAll_cons (cache : MatchCache) (question : Question (Unit → Bool))
    (rest : List (Question (Unit → Bool))) :
    cache.askAll (question :: rest) =
      ((cache.ask question.path question.test).1 ::
          ((cache.ask question.path question.test).2.askAll rest).1,
        ((cache.ask question.path question.test).2.askAll rest).2) :=
  rfl

/-- A longer run goes on from the cache that a shorter one leaves. -/
theorem askAll_append (cache : MatchCache) (before behind : List (Question (Unit → Bool))) :
    cache.askAll (before ++ behind) =
      ((cache.askAll before).1 ++ ((cache.askAll before).2.askAll behind).1,
        ((cache.askAll before).2.askAll behind).2) := by
  induction before generalizing cache with
  | nil => rfl
  | cons question rest ih => simp only [List.cons_append, askAll_cons, ih]

/-- What a cache that was empty knows and has counted after the given questions. -/
structure Answered (cache : MatchCache) (questions : List (Question (Unit → Bool))) : Prop
    extends cache.Asked (questions.map (·.path)) where
  find?_eq : ∀ path, cache.find? path = firstAnswer? questions path
  size_eq : cache.size = cache.misses

/-- A new cache has been asked nothing. -/
theorem answered_empty : empty.Answered [] :=
  ⟨asked_empty, fun _ => by simp [find?, empty, firstAnswer?], rfl⟩

/-- An entry is made exactly if a miss is counted. -/
theorem size_ask (h : cache.size = cache.misses) (path : List String) (answer : Unit → Bool) :
    (cache.ask path answer).2.size = (cache.ask path answer).2.misses := by
  cases hfind : cache.find? path with
  | some known =>
    rw [ask_known hfind]
    exact h
  | none =>
    -- an insertion makes the map longer only under a new key
    have hnew : path ∉ cache.entries := by
      rw [← Std.HashMap.isSome_getElem?_iff_mem]
      simpa [find?] using hfind
    rw [ask_new hfind]
    simp only [size, Std.HashMap.size_insert, if_neg hnew]
    exact congrArg Nat.succ h

/-- One more question is answered by the first one about its path, which may be the question
itself. -/
theorem Answered.ask {questions : List (Question (Unit → Bool))} (h : cache.Answered questions)
    (question : Question (Unit → Bool)) :
    some (cache.ask question.path question.test).1 =
        firstAnswer? (questions ++ [question]) question.path ∧
      (cache.ask question.path question.test).2.Answered (questions ++ [question]) := by
  have hanswer : some (cache.ask question.path question.test).1 =
      firstAnswer? (questions ++ [question]) question.path := by
    rw [ask_fst, h.find?_eq, firstAnswer?_append, firstAnswer?_singleton, if_pos rfl]
    -- an answer that is known is given, else the test is made
    cases firstAnswer? questions question.path <;> rfl
  have hasked := h.toAsked.ask question.path question.test
  rw [← List.map_singleton (f := Question.path), ← List.map_append] at hasked
  refine ⟨hanswer, hasked, fun path => ?_, size_ask h.size_eq _ _⟩
  rw [find?_ask]
  by_cases hpath : question.path = path
  · rw [if_pos hpath, hanswer, hpath]
  · rw [if_neg hpath, h.find?_eq, firstAnswer?_append, firstAnswer?_singleton, if_neg hpath,
      Option.or_none]

/-- Questions that follow others are answered by the first one about their path among all. -/
theorem Answered.askAll {earlier : List (Question (Unit → Bool))} (h : cache.Answered earlier)
    (questions : List (Question (Unit → Bool))) :
    (cache.askAll questions).1.map some =
        questions.map (fun question => firstAnswer? (earlier ++ questions) question.path) ∧
      (cache.askAll questions).2.Answered (earlier ++ questions) := by
  induction questions generalizing cache earlier with
  | nil => exact ⟨rfl, by rwa [List.append_nil]⟩
  | cons question rest ih =>
    obtain ⟨hanswer, hnext⟩ := h.ask question
    obtain ⟨hanswers, hafter⟩ := ih hnext
    rw [List.append_assoc, List.singleton_append] at hanswers hafter
    refine ⟨?_, hafter⟩
    -- what is asked later does not change the first answer, since there is one already
    have hfirst : firstAnswer? (earlier ++ question :: rest) question.path =
        some (cache.ask question.path question.test).1 := by
      rw [← List.singleton_append, ← List.append_assoc, firstAnswer?_append, ← hanswer,
        Option.some_or]
    rw [List.map_cons, hfirst, ← hanswers]
    rfl

/-! ## Tests with effects -/

/-- The same in a monad. -/
theorem askAllM_cons {m : Type → Type} [Monad m] (cache : MatchCache)
    (question : Question (Unit → m Bool)) (rest : List (Question (Unit → m Bool))) :
    cache.askAllM (question :: rest) = cache.askM question.path question.test >>= fun first =>
      first.2.askAllM rest >>= fun others => pure (first.1 :: others.1, others.2) :=
  rfl

/-- A question gives its path an answer, and no other path. -/
theorem find?_ask_eq_none_iff {other : List String} {answer : Unit → Bool} :
    (cache.ask path answer).2.find? other = none ↔ path ≠ other ∧ cache.find? other = none := by
  rw [find?_ask]
  by_cases h : path = other <;> simp [h]

/-- Tests matter only for paths without an answer. -/
theorem ask_congr {first second : Unit → Bool}
    (h : cache.find? path = none → first () = second ()) :
    cache.ask path first = cache.ask path second := by
  cases hfind : cache.find? path with
  | some known => rw [ask_known hfind, ask_known hfind]
  | none => rw [ask_new hfind, ask_new hfind, h hfind]

/-- The first of the questions gets the answer that was found for its path. -/
theorem askAll_settled_cons {Test : Type} {found : List (List String × Bool)}
    {question : Question Test} {first : Bool × MatchCache}
    (h : (cache.ask question.path fun _ => (found.lookup question.path).getD false) = first)
    (rest : List (Question Test)) :
    cache.askAll ((question :: rest).map (settled found)) =
      (first.1 :: (first.2.askAll (rest.map (settled found))).1,
        (first.2.askAll (rest.map (settled found))).2) := by
  subst h
  rfl

/-- Answers that have been found matter only for paths without an answer in the cache. -/
theorem askAll_settled_congr {Test : Type} {found others : List (List String × Bool)}
    (h : ∀ path, cache.find? path = none → found.lookup path = others.lookup path)
    (questions : List (Question Test)) :
    cache.askAll (questions.map (settled found)) =
      cache.askAll (questions.map (settled others)) := by
  induction questions generalizing cache with
  | nil => rfl
  | cons question rest ih =>
    have hask : (cache.ask question.path fun _ => (found.lookup question.path).getD false) =
        cache.ask question.path fun _ => (others.lookup question.path).getD false :=
      ask_congr fun hnone => by rw [h _ hnone]
    have hrest : ∀ path, (cache.ask question.path fun _ =>
        (others.lookup question.path).getD false).2.find? path = none →
          found.lookup path = others.lookup path :=
      fun path hnone => h path (find?_ask_eq_none_iff.1 hnone).2
    rw [askAll_settled_cons hask, askAll_settled_cons rfl, ih hrest]

/-- Behind a question its path has an answer, so what was found for it is not needed again. -/
theorem askAll_settled_cons_self {Test : Type} {found : List (List String × Bool)}
    (question : Question Test) (result : Bool) (rest : List (Question Test)) :
    cache.askAll ((question :: rest).map (settled ((question.path, result) :: found))) =
      ((cache.ask question.path fun _ => result).1 ::
          ((cache.ask question.path fun _ => result).2.askAll (rest.map (settled found))).1,
        ((cache.ask question.path fun _ => result).2.askAll (rest.map (settled found))).2) := by
  have hask : (cache.ask question.path fun _ =>
      (((question.path, result) :: found).lookup question.path).getD false) =
        cache.ask question.path fun _ => result := by
    rw [List.lookup_cons_self, Option.getD_some]
  have hrest : ∀ path, (cache.ask question.path fun _ => result).2.find? path = none →
      ((question.path, result) :: found).lookup path = found.lookup path := by
    intro path hnone
    have hne := (find?_ask_eq_none_iff.1 hnone).1
    rw [List.lookup_cons, beq_false_of_ne hne.symm]
  rw [askAll_settled_cons hask, askAll_settled_congr hrest]

/-- With a test that has no effect, the operation is the same in every monad. -/
theorem askM_pure {m : Type → Type} [Monad m] [LawfulMonad m] (cache : MatchCache)
    (path : List String) (found : Bool) :
    cache.askM (m := m) path (fun _ => pure found) = pure (cache.ask path fun _ => found) := by
  cases hfind : cache.find? path with
  | some known => exact askM_known hfind _ _
  | none => rw [askM_new hfind, pure_bind]

/-- A run with tests that may have effects makes those that have to be made and no other. From
there on it is a run with the answers found. -/
theorem Asked.askAllM_eq {m : Type → Type} [Monad m] [LawfulMonad m]
    {earlier : List (List String)} (h : cache.Asked earlier)
    (questions : List (Question (Unit → m Bool))) :
    cache.askAllM questions = (firstsAfter earlier questions).mapM answer >>= fun found =>
      pure (cache.askAll (questions.map (settled found))) := by
  induction questions generalizing cache earlier with
  | nil => simp only [askAllM, firstsAfter, List.mapM_nil, pure_bind, List.map_nil, askAll, Id.run_pure]
  | cons question rest ih =>
    -- what the cache knows are the earlier paths, so it makes the tests that are left in the list
    have hknown := h.known question.path
    cases hfind : cache.find? question.path with
    | some known =>
      have hold : question.path ∈ earlier := hknown.1 (by rw [hfind]; rfl)
      have hask : ∀ test,
          cache.ask question.path test = cache.ask question.path fun _ => known := by
        intro test
        refine ask_congr fun hnone => ?_
        rw [hfind] at hnone
        contradiction
      rw [askAllM_cons, askM_known hfind question.test fun _ => known, pure_bind,
        ih (h.ask question.path fun _ => known), firstsAfter, if_pos hold, bind_assoc]
      refine bind_congr fun found => ?_
      rw [pure_bind, askAll_settled_cons (hask _)]
    | none =>
      have hnew : question.path ∉ earlier := by
        rw [← hknown, hfind]
        exact Bool.false_ne_true
      rw [askAllM_cons, askM_new hfind, bind_assoc, firstsAfter, if_neg hnew, List.mapM_cons,
        answer, bind_assoc, bind_assoc]
      refine bind_congr fun result => ?_
      rw [pure_bind, pure_bind, ih (h.ask question.path fun _ => result), bind_assoc, bind_assoc]
      refine bind_congr fun found => ?_
      rw [pure_bind, pure_bind, askAll_settled_cons_self]

/-! ## Runs from the empty cache -/

/-- Questions asked of one cache, one after the other, are answered by the first one about their
path. The cache keeps that answer for the path and none for a path that was not asked about; it
has an entry and a miss for each different path, and a hit or a miss for each question. All of this
holds after each question, since a longer run goes on from where a shorter one ends. Asking about a
path leaves the entries of all others alone, whatever characters the names are made of.

If tests have effects, those that are made are the tests of the questions whose path no question
before was about, one after the other and one for each different path, and what they find decides
the run. With a test that has none, this is asking. -/
theorem askAll_recalls :
    (∀ questions : List (Question (Unit → Bool)),
      (empty.askAll questions).1.map some =
          questions.map (fun question => firstAnswer? questions question.path) ∧
        (∀ path, (empty.askAll questions).2.find? path = firstAnswer? questions path) ∧
        (empty.askAll questions).2.size = (empty.askAll questions).2.misses ∧
        (empty.askAll questions).2.misses = (questions.map (·.path)).toFinset.card ∧
        (empty.askAll questions).2.hits + (empty.askAll questions).2.misses =
          questions.length ∧
        ∀ more, empty.askAll (questions ++ more) =
          ((empty.askAll questions).1 ++ ((empty.askAll questions).2.askAll more).1,
            ((empty.askAll questions).2.askAll more).2)) ∧
    (∀ (cache : MatchCache) (path other : List String) (answer : Unit → Bool), path ≠ other →
      (cache.ask path answer).2.find? other = cache.find? other) ∧
    ∀ (m : Type → Type) [Monad m] [LawfulMonad m] (questions : List (Question (Unit → m Bool))),
      (empty.askAllM questions = (firsts questions).mapM answer >>= fun found =>
        pure (empty.askAll (questions.map (settled found)))) ∧
      ((firsts questions).map (·.path)).Nodup ∧
      (∀ path, path ∈ (firsts questions).map (·.path) ↔ path ∈ questions.map (·.path)) ∧
      ∀ (cache : MatchCache) (path : List String) (found : Bool),
        (cache.askM path (fun _ => pure found) : m _) = pure (cache.ask path fun _ => found) := by
  refine ⟨fun questions => ?_, fun cache path other answer hne => ?_, ?_⟩
  · obtain ⟨hanswers, hafter⟩ := answered_empty.askAll questions
    have htotal := hafter.total_eq
    rw [List.length_map] at htotal
    exact ⟨hanswers, hafter.find?_eq, hafter.size_eq, hafter.misses_eq, htotal,
      askAll_append empty questions⟩
  -- paths are told apart as lists of names, so no joined text can confuse them
  · rw [find?_ask, if_neg hne]
  · intro m _ _ questions
    refine ⟨asked_empty.askAllM_eq questions, nodup_path_firstsAfter [] questions, fun path => ?_,
      askM_pure⟩
    rw [firsts, mem_path_firstsAfter]
    exact and_iff_right List.not_mem_nil

/-- A question whose test notes the question's number before it answers. -/
def numbered (number : Nat) (path : List String) (found : Bool) :
    Question (Unit → StateM (List Nat) Bool) :=
  ⟨path, fun _ => do
    modify (· ++ [number])
    pure found⟩

/-- Questions about paths that are easily mistaken for each other. -/
def slashQuestions : List (Question (Unit → StateM (List Nat) Bool)) :=
  [numbered 0 ["a", "b"] true, numbered 1 ["a/b"] false, numbered 2 ["a", "b"] false,
    numbered 3 ["", "a"] true, numbered 4 ["a/b"] true, numbered 5 ["a"] false]

/-- Two names are not one name with a slash, and an empty name counts. The tests of the questions 2
and 4 would find something else than those of the questions before, but neither is made. -/
theorem askAll_recalls_slashes :
    LawfulMonad (StateM (List Nat)) ∧ ∃ cache : MatchCache,
      (empty.askAllM slashQuestions).run [] =
        (([true, false, true, true, false, false], cache), [0, 1, 3, 5]) ∧
      cache.find? ["a/b"] = some false ∧ cache.find? ["/a"] = none ∧
      cache.size = 4 ∧ cache.misses = 4 ∧ cache.hits = 2 ∧
      ["a", "/b"] ≠ ["a/b"] ∧
      (cache.ask ["a", "/b"] fun _ => true).2.find? ["a/b"] = some false := by
  obtain ⟨hruns, hothers, heffects⟩ := askAll_recalls
  have hfirsts : firsts slashQuestions = [numbered 0 ["a", "b"] true, numbered 1 ["a/b"] false,
      numbered 3 ["", "a"] true, numbered 5 ["a"] false] := by
    simp [firsts, firstsAfter, slashQuestions, numbered]
  obtain ⟨calls, hcalls⟩ : ∃ calls, calls = slashQuestions.map
      (settled [(["a", "b"], true), (["a/b"], false), (["", "a"], true), (["a"], false)]) :=
    ⟨_, rfl⟩
  have hrun : (empty.askAllM slashQuestions).run [] = (empty.askAll calls, [0, 1, 3, 5]) := by
    rw [(heffects _ slashQuestions).1, hfirsts, hcalls]
    rfl
  obtain ⟨hanswers, hknown, hsize, hmisses, htotal, -⟩ := hruns calls
  have hanswered : (empty.askAll calls).1 = [true, false, true, true, false, false] := by
    refine List.map_injective_iff.2 (Option.some_injective Bool) (hanswers.trans ?_)
    rw [hcalls]
    rfl
  have hdistinct : (calls.map (·.path)).toFinset.card = 4 := by rw [hcalls]; rfl
  have hlength : calls.length = 6 := by rw [hcalls]; rfl
  have hslash : (empty.askAll calls).2.find? ["a/b"] = some false := by
    rw [hknown, hcalls]
    rfl
  have hne : ["a", "/b"] ≠ ["a/b"] := by decide
  refine ⟨inferInstance, (empty.askAll calls).2, ?_, hslash, ?_, ?_, ?_, ?_, hne, ?_⟩
  · rw [hrun, ← hanswered]
  · rw [hknown, hcalls]
    rfl
  · rw [hsize, hmisses, hdistinct]
  · rw [hmisses, hdistinct]
  · omega
  · rw [hothers _ _ _ _ hne, hslash]

end MatchCache

end PartialResponse
