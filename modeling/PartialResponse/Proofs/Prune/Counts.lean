import PartialResponse.Document.Prune
import PartialResponse.Proofs.Prune.Cache
import PartialResponse.Proofs.Prune.Leaves
import Mathlib.Data.List.Perm.Basic

/-!
# PartialResponse.Proofs.Prune.Counts — what a pass counts

A pass asks about the path of each property it comes to, and it comes to a
property exactly if the paths of all properties above are selected: these are
the visits. The counts in the log are those of the visits, so they can be told
from the value alone (`pruneLogged_counts`).

The pass is followed step by step with a test that notes every path at which it is
made (`valueM_noting`). That tells both what the cache has been asked and where the
test was made.
-/

namespace PartialResponse

/-! ## Visits -/

/-- The paths of the part's own properties, if it is an object. -/
def Part.propertyPaths (p : Part) : List (List String) :=
  match p.value with
  | .object properties => properties.map fun property => p.path ++ [property.1]
  | _ => []

/-- The paths of all properties in a value, each as often as there is a property with it. -/
def Tree.propertyPaths (t : Tree) : List (List String) :=
  t.parts.flatMap Part.propertyPaths

/-- Whether every property above the path is selected. -/
def Criterion.Opens (c : Criterion) (path : List String) : Prop :=
  ∀ above, above ≠ [] → above <+: path → above ≠ path → c.Selects above

theorem Criterion.opens_concat_iff {c : Criterion} {path : List String} {name : String} :
    c.Opens (path ++ [name]) ↔ shown c.keeps path = true := by
  constructor
  · intro hopens
    cases path with
    | nil => rfl
    | cons first path =>
      exact keeps_iff_selects.2
        (hopens (first :: path) (List.cons_ne_nil _ _) (List.prefix_append _ _) (by simp))
  · intro hshown above hne hbegins hproper
    rcases List.prefix_concat_iff.1 hbegins with hall | hbegins
    · exact absurd hall hproper
    · rw [← keeps_iff_selects]
      have habove := Part.shown_of_begins (fun _ _ => keeps_of_append) hbegins hshown
      simpa [shown, hne] using habove

theorem Criterion.opens_iff {c : Criterion} {path : List String} :
    c.Opens path ↔ shown c.keeps path.dropLast = true := by
  rcases path.eq_nil_or_concat' with rfl | ⟨above, name, rfl⟩
  · refine iff_of_true (fun above hne hbegins => ?_) rfl
    exact absurd (List.prefix_nil.1 hbegins) hne
  · rw [opens_concat_iff, List.dropLast_concat]

instance (c : Criterion) : DecidablePred c.Opens := fun _ =>
  decidable_of_iff _ Criterion.opens_iff.symm

/-- The paths of the properties that a pass comes to, each as often as it does. -/
def Tree.visits (c : Criterion) (t : Tree) : List (List String) :=
  t.propertyPaths.filter c.Opens

/-- A property that is dropped is visited, and nothing inside it. -/
example :
    let c : Criterion := ⟨.ofList [⟨[], ⟨"a", by decide⟩⟩], .sensitive, none⟩
    let item : Tree := .object [("a", .null), ("b", .object [("c", .null)])]
    (Tree.array [item, item]).visits c = [["a"], ["b"], ["a"], ["b"]] := by
  decide +kernel

/-! ## Questions -/

namespace Tree

variable {keeps : List String → Bool} {path : List String}

mutual

/-- The paths that are asked about on the way through a value, one after the other. -/
def questions (keeps : List String → Bool) (path : List String) : Tree → List (List String)
  | scalar _ => []
  | array items => itemQuestions keeps path items
  | object properties => propertyQuestions keeps path properties

/-- The paths that are asked about on the way through items. -/
def itemQuestions (keeps : List String → Bool) (path : List String) :
    List Tree → List (List String)
  | [] => []
  | item :: rest => questions keeps path item ++ itemQuestions keeps path rest

/-- The paths that are asked about on the way through properties: of each its own, and what is asked
inside, if it passes the test. -/
def propertyQuestions (keeps : List String → Bool) (path : List String) :
    Properties Tree → List (List String)
  | [] => []
  | (name, child) :: rest =>
    (path ++ [name]) :: ((if keeps (path ++ [name]) then questions keeps (path ++ [name]) child
      else []) ++ propertyQuestions keeps path rest)

end

theorem questions_array (items : List Tree) :
    (array items).questions keeps path = items.flatMap (questions keeps path) := by
  rw [questions]
  induction items with
  | nil => rfl
  | cons item rest ih => rw [itemQuestions, ih, List.flatMap_cons]

theorem questions_object (properties : Properties Tree) :
    (object properties).questions keeps path = properties.flatMap fun property =>
      [path ++ [property.1]] ++ if keeps (path ++ [property.1]) then
        property.2.questions keeps (path ++ [property.1]) else [] := by
  rw [questions]
  induction properties with
  | nil => rfl
  | cons property rest ih =>
    rw [propertyQuestions, ih, List.flatMap_cons, List.append_assoc]
    rfl

end Tree

namespace Part

variable {c : Criterion} {p : Part} {path : List String}

theorem exists_name_of_mem_propertyPaths (h : path ∈ p.propertyPaths) :
    ∃ name, path = p.path ++ [name] := by
  obtain ⟨level, own, value⟩ := p
  cases value with
  | scalar s => cases h
  | array items => cases h
  | object properties =>
    obtain ⟨property, _, rfl⟩ := List.mem_map.1 h
    exact ⟨property.1, rfl⟩

/-- No property inside a part is visited if the part's own path fails the test. -/
theorem not_opens_of_not_shown (h : shown c.keeps p.path = false) :
    (p.parts.flatMap propertyPaths).filter c.Opens = [] := by
  rw [List.filter_eq_nil_iff]
  intro path hpath hopens
  obtain ⟨q, hq, hin⟩ := List.mem_flatMap.1 hpath
  obtain ⟨name, rfl⟩ := exists_name_of_mem_propertyPaths hin
  have hshown := Criterion.opens_concat_iff.1 (of_decide_eq_true hopens)
  rw [shown_of_begins (fun _ _ => Criterion.keeps_of_append) (path_prefix_of_mem_parts hq) hshown]
    at h
  contradiction

/-- The part's own properties are visited if its path passes the test. -/
theorem opens_of_shown (h : shown c.keeps p.path = true) :
    p.propertyPaths.filter c.Opens = p.propertyPaths := by
  rw [List.filter_eq_self]
  intro path hpath
  obtain ⟨name, rfl⟩ := exists_name_of_mem_propertyPaths hpath
  exact decide_eq_true (Criterion.opens_concat_iff.2 h)

/-- What is asked on the way through a part is what is visited in it. -/
theorem questions_perm_visits (h : shown c.keeps p.path = true) :
    (p.value.questions c.keeps p.path).Perm ((p.parts.flatMap propertyPaths).filter c.Opens) := by
  induction p using Part.induct with
  | step p ih =>
    rw [parts_eq, List.flatMap_cons, List.filter_append, opens_of_shown h, List.flatMap_assoc,
      List.filter_flatMap]
    obtain ⟨level, path, value⟩ := p
    cases value with
    | scalar s => exact .refl _
    | array items =>
      rw [Tree.questions_array]
      simp only [children, List.flatMap_map]
      apply List.Perm.flatMap_left
      intro item hitem
      exact ih _ (List.mem_map_of_mem hitem) h
    | object properties =>
      rw [Tree.questions_object]
      -- the pass goes inside a property before it asks about the next one, while the parts are
      -- taken with all their own properties first
      refine (List.flatMap_append_perm _ _ _).symm.trans (.append ?_ ?_)
      · rw [← List.map_eq_flatMap]
        exact .refl _
      · simp only [children, List.flatMap_map]
        apply List.Perm.flatMap_left
        intro property hproperty
        have hmem := List.mem_map_of_mem (f := fun property : String × Tree =>
          (⟨level + 1, path ++ [property.1], property.2⟩ : Part)) hproperty
        cases hkeeps : c.keeps (path ++ [property.1]) with
        | true =>
          rw [if_pos rfl]
          exact ih _ hmem (by simp [shown, hkeeps])
        | false =>
          -- the property is asked about itself, but nothing inside
          rw [if_neg Bool.false_ne_true, not_opens_of_not_shown (by simp [shown, hkeeps])]

end Part

theorem Tree.questions_perm_visits (c : Criterion) (t : Tree) :
    (t.questions c.keeps []).Perm (t.visits c) :=
  Part.questions_perm_visits (p := ⟨0, [], t⟩) rfl

/-! ## The tests of a pass -/

/-- Puts the criterion to a path and notes the path. -/
def Criterion.keepsNoting (c : Criterion) : List String → StateM (List (List String)) Bool :=
  MatchCache.noting c.keeps

namespace Pass

variable {c : Criterion} {pass : Pass} {path : List String} {paths notes : List (List String)}

/-- A step that is known to end in a state is followed by the next step from there. -/
theorem run_bind_of_run {σ α β : Type} {x : StateM σ α} {f : α → StateM σ β} {s s' : σ} {a : α}
    (h : x.run s = (a, s')) : (x >>= f).run s = (f a).run s' := by
  rw [StateT.run_bind, h]
  rfl

theorem selectsM_noting (h : pass.At c path) (hnoted : pass.cache.Noted paths notes) :
    ∃ notes', (pass.selectsM Criterion.keepsNoting).run notes = (pass.selects, notes') ∧
      pass.selects.2.cache.Noted (paths ++ [path]) notes' := by
  obtain ⟨notes', hask, hafter⟩ := hnoted.askM c.keeps path
  obtain ⟨rfl, -, rfl, -⟩ := h
  exact ⟨notes', (run_bind_of_run hask).trans rfl, hafter⟩

mutual

/-- Run with the test that notes its paths, a pass goes on as it does, and it asks the questions of
the value. -/
theorem valueM_noting {pass : Pass} {path : List String} {paths notes : List (List String)}
    (h : pass.At c path) (hnoted : pass.cache.Noted paths notes) : (t : Tree) → ∃ notes',
    (pass.valueM Criterion.keepsNoting t).run notes = (pass.value t, notes') ∧
      (pass.value t).2.cache.Noted (paths ++ t.questions c.keeps path) notes'
  | .scalar s => by
      rw [Tree.questions, List.append_nil]
      exact ⟨notes, rfl, hnoted⟩
  | .array items => by
      obtain ⟨notes', hrun, hafter⟩ := arrayM_noting h hnoted items
      rw [Tree.questions]
      refine ⟨notes', ?_, hafter⟩
      rw [valueM, run_bind_of_run hrun]
      rfl
  | .object properties => by
      obtain ⟨notes', hrun, hafter⟩ := objectM_noting h hnoted properties
      rw [Tree.questions]
      refine ⟨notes', ?_, hafter⟩
      rw [valueM, run_bind_of_run hrun]
      rfl

theorem arrayM_noting {pass : Pass} {path : List String} {paths notes : List (List String)}
    (h : pass.At c path) (hnoted : pass.cache.Noted paths notes) : (items : List Tree) →
    ∃ notes', (pass.arrayM Criterion.keepsNoting items).run notes = (pass.array items, notes') ∧
      (pass.array items).2.cache.Noted (paths ++ Tree.itemQuestions c.keeps path items) notes'
  | [] => by
      rw [Tree.itemQuestions, List.append_nil]
      exact ⟨notes, rfl, hnoted⟩
  | item :: rest => by
      obtain ⟨between, hfirst, hbetween⟩ := valueM_noting h hnoted item
      obtain ⟨notes', hrest, hafter⟩ := arrayM_noting (value_at h item).2 hbetween rest
      rw [Tree.itemQuestions, ← List.append_assoc]
      refine ⟨notes', ?_, hafter⟩
      rw [arrayM, run_bind_of_run hfirst, run_bind_of_run hrest]
      rfl

theorem objectM_noting {pass : Pass} {path : List String} {paths notes : List (List String)}
    (h : pass.At c path) (hnoted : pass.cache.Noted paths notes) :
    (properties : Properties Tree) →
    ∃ notes', (pass.objectM Criterion.keepsNoting properties).run notes =
        (pass.object properties, notes') ∧
      (pass.object properties).2.cache.Noted
        (paths ++ Tree.propertyQuestions c.keeps path properties) notes'
  | [] => by
      rw [Tree.propertyQuestions, List.append_nil]
      exact ⟨notes, rfl, hnoted⟩
  | (name, child) :: rest => by
      have hat := h.enter name
      obtain ⟨hkept, hinside⟩ := hat.selects
      obtain ⟨between, hown, hbetween⟩ := selectsM_noting hat hnoted
      rw [objectM, run_bind_of_run hown, Tree.propertyQuestions, List.append_cons,
        ← List.append_assoc, object_cons]
      simp only [hkept]
      cases c.keeps (path ++ [name]) with
      | false =>
        -- nothing inside a dropped property is asked about
        simp only [Bool.false_eq_true, if_false, List.append_nil]
        exact objectM_noting hinside.leave hbetween rest
      | true =>
        obtain ⟨inner, hchild, hinner⟩ := valueM_noting hinside hbetween child
        obtain ⟨notes', hrest, hafter⟩ :=
          objectM_noting (value_at hinside child).2.leave hinner rest
        refine ⟨notes', ?_, hafter⟩
        rw [if_pos rfl, run_bind_of_run hchild, run_bind_of_run hrest]
        rfl

end

/-- What a pass from the root has asked about are its visits. -/
theorem start_noting (c : Criterion) (t : Tree) : ∃ paths notes, paths.Perm (t.visits c) ∧
    ((start c).valueM Criterion.keepsNoting t).run [] = ((start c).value t, notes) ∧
      ((start c).value t).2.cache.Noted paths notes := by
  obtain ⟨notes, hrun, hnoted⟩ := valueM_noting (at_start c) MatchCache.noted_empty t
  exact ⟨_, notes, t.questions_perm_visits c, hrun, hnoted⟩

end Pass

/-! ## The log -/

/-- What a pass reports: the different paths among the visits as matched, and the other visits as
answered from the cache. -/
theorem Tree.log_pruneLogged (c : Criterion) (t : Tree) :
    (t.pruneLogged c).2 = .pruned (t.visits c).toFinset.card
      ((t.visits c).length - (t.visits c).toFinset.card) := by
  obtain ⟨paths, notes, hperm, -, hnoted⟩ := Pass.start_noting c t
  have hasked := hnoted.toAsked
  rw [← List.toFinset_eq_of_perm _ _ hperm, ← hperm.length_eq, ← hasked.hits_eq,
    ← hasked.misses_eq]
  rfl

/-- The counts of a pass are those of its visits, the properties with only selected properties above
them: as many paths are matched as there are different ones among the visits, and all other
visits are answered from the cache. No path is matched twice: run with a test that notes the
paths at which it is made, the pass goes on as before, and the notes are the paths of the visits,
each once. Each root value of a stream reports its own counts, whatever the others are. -/
theorem Tree.pruneLogged_counts (c : Criterion) (t : Tree) :
    (t.pruneLogged c).2 = .pruned (t.visits c).toFinset.card
      ((t.visits c).length - (t.visits c).toFinset.card) ∧
    (∃ notes, ((Pass.start c).valueM Criterion.keepsNoting t).run [] =
        ((Pass.start c).value t, notes) ∧
      notes.Nodup ∧ ∀ path, path ∈ notes ↔ path ∈ t.visits c) ∧
    ∀ values, (Document.stream values).pruneLog c = values.map fun value =>
      .pruned (value.visits c).toFinset.card
        ((value.visits c).length - (value.visits c).toFinset.card) := by
  refine ⟨log_pruneLogged c t, ?_, ?_⟩
  · obtain ⟨paths, notes, hperm, hrun, hnoted⟩ := Pass.start_noting c t
    refine ⟨notes, hrun, hnoted.nodup, fun path => ?_⟩
    rw [hnoted.mem_iff, hperm.mem_iff]
  · intro values
    exact List.map_congr_left fun value _ => log_pruneLogged c value

end PartialResponse
