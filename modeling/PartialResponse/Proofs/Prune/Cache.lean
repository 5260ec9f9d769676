import PartialResponse.Prune.MatchCache
import Mathlib.Data.Finset.Card

/-!
# PartialResponse.Proofs.Prune.Cache — what a cache knows and what it counts

What a cache knows and counts depends on the questions alone, not on the answers:
it has an answer for each path it has been asked about, and counts each different
one as a miss and every other question as a hit (`Asked`).

A test may have effects, and then it matters how often it is made. With a test
that notes its paths (`noting`), every path that has been asked about is noted, each
of them once (`Noted`).
-/

namespace PartialResponse.MatchCache

variable {cache : MatchCache} {paths notes : List (List String)} {path : List String}

/-! ## One question -/

/-- A path with an answer is a hit, and nothing else changes. -/
theorem ask_known {known : Bool} (h : cache.find? path = some known) (answer : Unit → Bool) :
    cache.ask path answer = (known, { cache with hits := cache.hits + 1 }) := by
  simp [ask, askM, h]

/-- A path without an answer is a miss, and the answer is kept. -/
theorem ask_new (h : cache.find? path = none) (answer : Unit → Bool) :
    cache.ask path answer =
      (answer (), { entries := cache.entries.insert path (answer ()), hits := cache.hits,
                    misses := cache.misses + 1 }) := by
  simp only [ask, askM, h]
  rfl

section

variable {m : Type → Type} [Monad m]

/-- A test with effects is not made for a path with an answer. -/
theorem askM_known {known : Bool} (h : cache.find? path = some known) (test : Unit → m Bool)
    (answer : Unit → Bool) : cache.askM path test = pure (cache.ask path answer) := by
  rw [ask_known h, askM, h]

/-- A test with effects is made for a path without an answer, and what it finds is the answer. -/
theorem askM_new (h : cache.find? path = none) (test : Unit → m Bool) :
    cache.askM path test = test () >>= fun found => pure (cache.ask path fun _ => found) := by
  simp only [ask_new h, askM, h]

end

/-- The answer is the one that is known, or else the one that is found. -/
theorem ask_fst (cache : MatchCache) (path : List String) (answer : Unit → Bool) :
    (cache.ask path answer).1 = (cache.find? path).getD (answer ()) := by
  cases hfind : cache.find? path with
  | some known => rw [ask_known hfind, Option.getD_some]
  | none => rw [ask_new hfind, Option.getD_none]

/-- Asking leaves an answer for the path, and tells nothing about another one. -/
theorem find?_ask (cache : MatchCache) (path other : List String) (answer : Unit → Bool) :
    (cache.ask path answer).2.find? other =
      if path = other then some (cache.ask path answer).1 else cache.find? other := by
  cases hfind : cache.find? path with
  | some known =>
    rw [ask_known hfind]
    by_cases h : path = other
    · rw [if_pos h, ← h]
      exact hfind
    · rw [if_neg h]
      rfl
  | none =>
    rw [ask_new hfind]
    simp [find?, Std.HashMap.getElem?_insert]

/-- What is asked about a path does not change the answer for another one. -/
theorem ask_ask_of_ne {other : List String} (h : path ≠ other) (cache : MatchCache)
    (first second : Unit → Bool) :
    ((cache.ask path first).2.ask other second).1 = (cache.ask other second).1 := by
  rw [ask_fst, ask_fst, find?_ask, if_neg h]

/-! ## Counts -/

/-- What a cache that was empty knows and has counted after questions about the given paths. -/
structure Asked (cache : MatchCache) (paths : List (List String)) : Prop where
  known : ∀ path, (cache.find? path).isSome = true ↔ path ∈ paths
  misses_eq : cache.misses = paths.toFinset.card
  total_eq : cache.hits + cache.misses = paths.length

/-- A new cache has been asked nothing. -/
theorem asked_empty : empty.Asked [] :=
  ⟨by simp [find?, empty], rfl, rfl⟩

/-- One more question, about a path that is known or a new one. -/
theorem Asked.ask (h : cache.Asked paths) (path : List String) (answer : Unit → Bool) :
    (cache.ask path answer).2.Asked (paths ++ [path]) := by
  have hknown : ∀ other,
      ((cache.ask path answer).2.find? other).isSome = true ↔ other ∈ paths ++ [path] := by
    intro other
    rw [find?_ask, List.mem_append, List.mem_singleton, ← h.known]
    split
    case isTrue heq => simp [heq]
    case isFalse hne => simp [Ne.symm hne]
  have hset : (paths ++ [path]).toFinset = insert path paths.toFinset := by
    ext other
    simp
  have hlength : (paths ++ [path]).length = paths.length + 1 := by simp
  have htotal := h.total_eq
  refine ⟨hknown, ?_, ?_⟩
  · -- a path that is known adds nothing to the set, and another one adds itself
    rw [hset]
    cases hfind : cache.find? path with
    | some known =>
      have hmem : path ∈ paths.toFinset := by
        rw [List.mem_toFinset, ← h.known, hfind]
        rfl
      rw [Finset.insert_eq_of_mem hmem, ask_known hfind]
      exact h.misses_eq
    | none =>
      have hmem : path ∉ paths.toFinset := by
        rw [List.mem_toFinset, ← h.known, hfind]
        exact Bool.false_ne_true
      rw [Finset.card_insert_of_notMem hmem, ← h.misses_eq, ask_new hfind]
  · rw [hlength, ← htotal]
    cases hfind : cache.find? path with
    | some known =>
      rw [ask_known hfind]
      exact Nat.add_right_comm _ _ _
    | none =>
      rw [ask_new hfind]
      rfl

/-- Hits are the questions about paths that have been asked about before. -/
theorem Asked.hits_eq (h : cache.Asked paths) :
    cache.hits = paths.length - paths.toFinset.card := by
  have htotal := h.total_eq
  rw [h.misses_eq] at htotal
  omega

/-! ## Tests -/

/-- The test that notes the path before it answers. -/
def noting (test : List String → Bool) (path : List String) : StateM (List (List String)) Bool := do
  modify (· ++ [path])
  pure (test path)

/-- The paths that have been noted are those that have been asked about, each once. -/
structure Noted (cache : MatchCache) (paths notes : List (List String)) : Prop
    extends cache.Asked paths where
  nodup : notes.Nodup
  mem_iff : ∀ path, path ∈ notes ↔ path ∈ paths

/-- Nothing has been noted for a new cache. -/
theorem noted_empty : empty.Noted [] [] :=
  ⟨asked_empty, List.nodup_nil, fun _ => Iff.rfl⟩

/-- Asking with the test that notes its paths answers as before, and notes a path that had no answer
and no other. -/
theorem Noted.askM (h : cache.Noted paths notes) (test : List String → Bool)
    (path : List String) :
    ∃ notes', (cache.askM path fun _ => noting test path).run notes =
        (cache.ask path fun _ => test path, notes') ∧
      (cache.ask path fun _ => test path).2.Noted (paths ++ [path]) notes' := by
  have hasked := h.toAsked.ask path fun _ => test path
  have hknown := h.known path
  cases hfind : cache.find? path with
  | some known =>
    -- the test is not made, so nothing is noted
    have hold : path ∈ paths := hknown.1 (by rw [hfind]; rfl)
    refine ⟨notes, ?_, hasked, h.nodup, fun other => ?_⟩
    · rw [askM_known hfind _ fun _ => test path]
      rfl
    · rw [h.mem_iff, List.mem_append, List.mem_singleton]
      exact ⟨Or.inl, fun hother => hother.elim id fun heq => heq ▸ hold⟩
  | none =>
    -- the path had no answer, so it has not been noted before
    have hnew : path ∉ notes := by
      rw [h.mem_iff, ← hknown, hfind]
      exact Bool.false_ne_true
    refine ⟨notes ++ [path], ?_, hasked, ?_, fun other => ?_⟩
    · rw [askM_new hfind]
      rfl
    · exact h.nodup.append (List.nodup_singleton path) (List.disjoint_singleton.2 hnew)
    · rw [List.mem_append, List.mem_append, h.mem_iff]

end PartialResponse.MatchCache
