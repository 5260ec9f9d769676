import PartialResponse.Prune.Pass
import PartialResponse.Proofs.Prune.Cache
import PartialResponse.Proofs.Prune.Thinning

/-!
# PartialResponse.Proofs.Prune.Refinement — the pass computes thinning

A pass carries state that thinning does without: answers given before, and
buffers in which names of properties already left may lie. Neither shows in what
comes out. A pass is at a path when the live part of its buffers is that path and
every answer it keeps is the one the criterion gives; pruning a value at a path
gives what thinning gives, and leaves the pass at the path.

Main statements: each of the three mutually recursive steps of the pass refines
thinning and keeps the invariant (`value_at`, `array_at`, `object_at`), hence
pruning a root value is thinning it (`prune_eq_thin`).
-/

namespace PartialResponse

namespace MatchCache

/-- Every answer that is kept is the one the test gives. -/
def Agrees (cache : MatchCache) (test : List String → Bool) : Prop :=
  ∀ path known, cache.find? path = some known → known = test path

theorem agrees_empty (test : List String → Bool) : empty.Agrees test := by
  intro path known h
  simp [find?, empty] at h

/-- Asking gives the answer of the test, known or not, and keeps the cache in agreement. -/
theorem ask_of_agrees {cache : MatchCache} {test : List String → Bool} (h : cache.Agrees test)
    (path : List String) :
    (cache.ask path fun _ => test path).1 = test path ∧
      (cache.ask path fun _ => test path).2.Agrees test := by
  have hanswer : (cache.ask path fun _ => test path).1 = test path := by
    rw [ask_fst]
    cases hfind : cache.find? path with
    | some known => exact h path known hfind
    | none => rfl
  refine ⟨hanswer, fun other known hother => ?_⟩
  rw [find?_ask, hanswer] at hother
  split at hother
  case isTrue heq => rw [← heq, ← Option.some.inj hother]
  case isFalse => exact h other known hother

end MatchCache

namespace Pass

variable {pass : Pass} {c : Criterion} {path : List String}

/-- A pass of a criterion that is at a path. What lies in the buffers beyond the depth does not
matter. -/
structure At (pass : Pass) (c : Criterion) (path : List String) : Prop where
  criterion_eq : pass.criterion = c
  live : pass.depth ≤ pass.buffers.length
  path_eq : pass.path = path
  answers : pass.cache.Agrees c.keeps

theorem at_start (c : Criterion) : (start c).At c [] :=
  ⟨rfl, Nat.le_refl 0, rfl, MatchCache.agrees_empty c.keeps⟩

theorem At.depth_eq (h : pass.At c path) : pass.depth = path.length := by
  have hlength := congrArg List.length h.path_eq
  rw [Pass.path, List.length_take, Nat.min_eq_left h.live] at hlength
  exact hlength

/-- Descending extends the path, whether the name goes into an old buffer or a new one. -/
theorem At.enter (h : pass.At c path) (name : String) : (pass.enter name).At c (path ++ [name]) := by
  have hpath : pass.buffers.take pass.depth = path := h.path_eq
  have hlive := h.live
  by_cases hold : pass.depth < pass.buffers.length
  · -- the buffer at this depth holds the name of a property already left
    refine ⟨h.criterion_eq, ?_, ?_, h.answers⟩
    · simp only [Pass.enter, if_pos hold, List.length_set]
      exact hold
    · simp only [Pass.path, Pass.enter, if_pos hold]
      rw [List.take_add_one, List.getElem?_set_self hold, List.take_set_of_le (Nat.le_refl _), hpath]
      rfl
  · -- no buffer is free, so all of them are live
    have hdepth : pass.depth = pass.buffers.length := by omega
    refine ⟨h.criterion_eq, ?_, ?_, h.answers⟩
    · simp only [Pass.enter, if_neg hold, List.length_append, List.length_singleton]
      omega
    · simp only [Pass.path, Pass.enter, if_neg hold]
      rw [hdepth, List.take_of_length_le (by simp), ← hpath, hdepth, List.take_length]

/-- Going back up restores the path. -/
theorem At.leave {name : String} (h : pass.At c (path ++ [name])) : pass.leave.At c path := by
  have hdepth := h.depth_eq
  rw [List.length_append, List.length_singleton] at hdepth
  have hlive := h.live
  refine ⟨h.criterion_eq, ?_, ?_, h.answers⟩
  · simp only [Pass.leave]
    omega
  · have hpath : pass.buffers.take pass.depth = path ++ [name] := h.path_eq
    have hbegins := congrArg (List.take path.length) hpath
    rw [List.take_take, List.take_left, hdepth, Nat.min_eq_left (Nat.le_succ _)] at hbegins
    simp only [Pass.path, Pass.leave, hdepth]
    exact hbegins

/-- The test of the path is the criterion's, from the cache or not. -/
theorem At.selects (h : pass.At c path) :
    pass.selects.1 = c.keeps path ∧ pass.selects.2.At c path := by
  obtain ⟨rfl, hlive, rfl, hanswers⟩ := h
  obtain ⟨hanswer, hkept⟩ := MatchCache.ask_of_agrees hanswers pass.path
  exact ⟨hanswer, rfl, hlive, rfl, hkept⟩

/-! ## The three steps of the pass -/

mutual

theorem value_at {pass : Pass} {path : List String} (h : pass.At c path) : (t : Tree) →
    (pass.value t).1 = ⟨t.thin c.keeps path, t.collapses (t.thin c.keeps path)⟩ ∧
      (pass.value t).2.At c path
  | .scalar s => ⟨rfl, h⟩
  | .array items => by
      obtain ⟨hleft, hafter⟩ := array_at h items
      refine ⟨?_, hafter⟩
      simp [Tree.thin, Tree.collapses, hleft]
  | .object properties => by
      obtain ⟨hleft, hafter⟩ := object_at h properties
      refine ⟨?_, hafter⟩
      simp [Tree.thin, Tree.collapses, hleft]

theorem array_at {pass : Pass} {path : List String} (h : pass.At c path) : (items : List Tree) →
    (pass.array items).1 = Tree.thinItems c.keeps path items ∧ (pass.array items).2.At c path
  | [] => ⟨rfl, h⟩
  | item :: rest => by
      obtain ⟨hfirst, hbetween⟩ := value_at h item
      obtain ⟨hleft, hafter⟩ := array_at hbetween rest
      refine ⟨?_, hafter⟩
      simp [Tree.thinItems, hfirst, hleft]

theorem object_at {pass : Pass} {path : List String} (h : pass.At c path) :
    (properties : Properties Tree) →
    (pass.object properties).1 = Tree.thinProperties c.keeps path properties ∧
      (pass.object properties).2.At c path
  | [] => ⟨rfl, h⟩
  | (name, child) :: rest => by
      obtain ⟨hkept, hinside⟩ := (h.enter name).selects
      cases hkeeps : c.keeps (path ++ [name]) with
      | false =>
        -- the value is not visited, but the name is entered and the path asked about
        obtain ⟨hleft, hafter⟩ := object_at hinside.leave rest
        simp [Tree.thinProperties, hkept, hkeeps, hleft, hafter]
      | true =>
        obtain ⟨hfirst, hdone⟩ := value_at hinside child
        obtain ⟨hleft, hafter⟩ := object_at hdone.leave rest
        simp [Tree.thinProperties, hkept, hkeeps, hfirst, hleft, hafter]

end

end Pass

/-- Pruning a root value is thinning it by the criterion. -/
theorem Tree.prune_eq_thin (c : Criterion) (root : Tree) : root.prune c = root.thin c.keeps [] :=
  congrArg Pruned.value (Pass.value_at (Pass.at_start c) root).1

/-- Pruning looks at a criterion only through the paths it keeps. -/
theorem Tree.prune_eq_of_keeps_eq {c d : Criterion}
    (h : ∀ path, c.keeps path = d.keeps path) (root : Tree) : root.prune c = root.prune d := by
  rw [prune_eq_thin, prune_eq_thin, funext h]

/-- From any state of the pass that is at a path, whatever names are left over in its buffers and
whatever it has been asked before, pruning a value gives what the plain recursion gives at that
path and tells whether the value collapses, and the pass is afterwards at the same depth, path
and criterion, its answers still those of the criterion. Pruning from the root is the recursion at
the empty path. -/
theorem Pass.value_refines_thin (c : Criterion) :
    (∀ (pass : Pass) (path : List String) (t : Tree), pass.At c path →
      (pass.value t).1.value = t.thin c.keeps path ∧
        (pass.value t).1.emptied = t.collapses (t.thin c.keeps path) ∧
        (pass.value t).2.depth = pass.depth ∧ (pass.value t).2.At c path) ∧
    ∀ root : Tree, root.prune c = root.thin c.keeps [] := by
  refine ⟨?_, Tree.prune_eq_thin c⟩
  intro pass path t h
  obtain ⟨hpruned, hafter⟩ := Pass.value_at h t
  exact ⟨congrArg Pruned.value hpruned, congrArg Pruned.emptied hpruned,
    hafter.depth_eq.trans h.depth_eq.symm, hafter⟩

/-- A pass at `a` with a name left over from a sibling and with an answer given before. -/
theorem Pass.value_refines_thin_left_over :
    let c : Criterion := ⟨.ofList [⟨[⟨"a", by decide⟩], ⟨"b", by decide⟩⟩], .sensitive, none⟩
    let pass : Pass :=
      ⟨c, (MatchCache.empty.ask ["a", "c"] fun _ => c.keeps ["a", "c"]).2, ["a", "old"], 1⟩
    let t : Tree := .object [("b", .array [.null, .object []]), ("c", .null)]
    pass.At c ["a"] ∧
      (pass.value t).1.value = .object [("b", .array [.null, .object []])] ∧
      (pass.value t).1.emptied = false ∧
      (pass.value t).2.depth = 1 ∧ (pass.value t).2.At c ["a"] := by
  intro c pass t
  have hanswers : pass.cache.Agrees c.keeps :=
    (MatchCache.ask_of_agrees (MatchCache.agrees_empty c.keeps) ["a", "c"]).2
  have hat : pass.At c ["a"] := ⟨rfl, by decide, rfl, hanswers⟩
  obtain ⟨hvalue, hemptied, hdepth, hafter⟩ :=
    (Pass.value_refines_thin c).1 pass ["a"] t hat
  exact ⟨hat, hvalue.trans rfl, hemptied.trans rfl, hdepth, hafter⟩

end PartialResponse
