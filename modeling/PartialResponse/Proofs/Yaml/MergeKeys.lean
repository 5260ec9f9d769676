import Mathlib.Data.List.Forall2
import PartialResponse.Proofs.Yaml.Keys
import PartialResponse.Yaml.Value.Merge

/-!
# PartialResponse.Proofs.Yaml.MergeKeys — what merge keys do

A mapping with a merge key takes over what the mappings named there have, as they
stand in the text: its own entries come first, and an earlier mapping comes before a
later one. This is said by what is found under each key.

The mappings that are named are not looked at before their entries are taken over.
Where one of them has a merge key itself, that key is taken over like any other, and
stays. Only then are the values of all entries looked at.

What is found under a key depends on nothing but the key's being there once, which
holds of the mappings of every text.
-/

namespace PartialResponse

/-! ## Scalars as keys -/

@[simp]
theorem Scalar.same_refl_string (s : String) : (Scalar.string s).same (.string s) = true := by
  simp [Scalar.same]

/-- Floats count as equal if they have the same rank; both zeros have the rank 0. -/
theorem Binary64.same_iff {x y : Binary64} :
    x.same y = true ↔ x.rank = y.rank ∧ (x.negative = y.negative ∨ x.rank = 0) := by
  simp [Binary64.same]

theorem Scalar.same_symm {a b : Scalar} (h : a.same b = true) : b.same a = true := by
  rcases a with _ | a | (⟨a, _⟩ | x) | a <;> rcases b with _ | b | (⟨b, _⟩ | y) | b <;>
    simp only [Scalar.same, Number.same, Binary64.same_iff, beq_iff_eq, Bool.false_eq_true] at h ⊢
  all_goals first | exact h.symm | exact ⟨h.1.symm, by rw [← h.1]; exact h.2.imp Eq.symm id⟩

theorem Scalar.same_trans {a b c : Scalar} (h : a.same b = true) (h' : b.same c = true) :
    a.same c = true := by
  rcases a with _ | a | (⟨a, _⟩ | x) | a <;> rcases b with _ | b | (⟨b, _⟩ | y) | b <;>
    rcases c with _ | c | (⟨c, _⟩ | z) | c <;>
    simp only [Scalar.same, Number.same, Binary64.same_iff, beq_iff_eq, Bool.false_eq_true] at h h' ⊢
  all_goals first | exact h.trans h' | skip
  · refine ⟨h.1.trans h'.1, ?_⟩
    -- signs do not matter between zeros, and a rank of 0 is handed on
    rcases h.2 with hsign | hzero
    · rcases h'.2 with hsign' | hzero'
      · exact .inl (hsign.trans hsign')
      · exact .inr (h.1.trans hzero')
    · exact .inr hzero

namespace Yaml.Value

/-! ## What is found under a key -/

/-- What is found under a scalar. The first entry with that key counts. -/
def lookup (key : Scalar) (entries : List (Value × Value)) : Option Value :=
  (entries.find? fun entry => (scalar key).same entry.1).map (·.2)

/-- The scalar that is a merge key. -/
def mergeName : Scalar := .string "<<"

variable {key : Scalar} {entries merged sources : List (Value × Value)}

/-- Only a scalar counts as equal to a scalar. -/
theorem exists_scalar_of_same {v : Value} (h : (scalar key).same v = true) :
    ∃ k, v = scalar k ∧ key.same k = true := by
  cases v with
  | scalar k => exact ⟨k, rfl, h⟩
  | _ => simp [same] at h

/-- Nothing but the text `<<` counts as the merge key. -/
@[simp]
theorem same_mergeKey_iff {v : Value} : v.same mergeKey = true ↔ v = mergeKey := by
  constructor
  · intro h
    cases v with
    | scalar k =>
      cases k with
      | string s => simpa [mergeKey, ofString, same, Scalar.same] using h
      | _ => simp [mergeKey, ofString, same, Scalar.same] at h
    | _ => simp [mergeKey, ofString, same] at h
  · rintro rfl
    simp [mergeKey, ofString, same, Scalar.same]

theorem eq_mergeName_of_same (h : key.same (.string "<<") = true) : key = mergeName := by
  cases key with
  | string s =>
    rw [Scalar.same, beq_iff_eq] at h
    rw [h, mergeName]
  | _ => simp [Scalar.same] at h

theorem same_mergeName_iff {v : Value} : (scalar mergeName).same v = true ↔ v = mergeKey := by
  constructor
  · intro h
    obtain ⟨k, rfl, hk⟩ := exists_scalar_of_same h
    exact same_mergeKey_iff.1 (Scalar.same_symm hk)
  · rintro rfl
    exact Scalar.same_refl_string "<<"

/-- What the entries in front have is found first. -/
@[simp]
theorem lookup_append (first more : List (Value × Value)) :
    lookup key (first ++ more) = (lookup key first).or (lookup key more) := by
  simp only [lookup, List.find?_append]
  cases List.find? (fun entry => (scalar key).same entry.1) first <;> rfl

theorem lookup_eq_none_iff :
    lookup key entries = none ↔ ∀ entry ∈ entries, (scalar key).same entry.1 = false := by
  simp [lookup]

/-- What is found stands in an entry whose key counts as equal to the one asked for. -/
theorem exists_mem_of_lookup {v : Value} (h : lookup key entries = some v) :
    ∃ k, (scalar k, v) ∈ entries ∧ key.same k = true := by
  rw [lookup, Option.map_eq_some_iff] at h
  obtain ⟨⟨k, w⟩, hfind, rfl⟩ := h
  have hsame : (scalar key).same k = true := by simpa using List.find?_some hfind
  obtain ⟨k, rfl, hk⟩ := exists_scalar_of_same hsame
  exact ⟨k, List.mem_of_find?_eq_some hfind, hk⟩

/-! ## Adding what is missing -/

/-- Adding an entry changes what is found under its key only, and only where nothing was found
before. -/
theorem lookup_addMissing (entry : Value × Value) :
    lookup key (addMissing entries entry) = (lookup key entries).or (lookup key [entry]) := by
  rw [addMissing]
  split
  · next hhas =>
    cases hfound : lookup key entries with
    | some v => rfl
    | none =>
      rw [lookup_eq_none_iff] at hfound
      symm
      rw [Option.none_or, lookup_eq_none_iff]
      intro other hother
      obtain rfl := List.mem_singleton.1 hother
      by_contra hsame
      -- the entry has the key that is asked for, so an entry there has it too
      obtain ⟨k, hk, hsame⟩ := exists_scalar_of_same (Bool.not_eq_false _ ▸ hsame)
      simp only [hasKey, hk, List.any_eq_true] at hhas
      obtain ⟨there, hthere, hsame'⟩ := hhas
      obtain ⟨k', hk', hsame'⟩ := exists_scalar_of_same hsame'
      have hnot := hfound there hthere
      rw [hk'] at hnot
      exact absurd (Scalar.same_trans hsame hsame') (by simpa [same] using hnot)
  · exact lookup_append entries [entry]

/-- The entries there are come first, then those added, in their order. -/
theorem lookup_foldl_addMissing :
    lookup key (sources.foldl addMissing entries) = (lookup key entries).or (lookup key sources) := by
  -- an entry added first is there for those added after it, so the entries vary
  induction sources generalizing entries with
  | nil => simp [lookup]
  | cons entry more ih =>
    have hcons : lookup key (entry :: more) = (lookup key [entry]).or (lookup key more) :=
      lookup_append [entry] more
    rw [List.foldl_cons, ih, lookup_addMissing, hcons, Option.or_assoc]

/-- Nothing is made up: each entry was there or has been added. -/
theorem mem_foldl_addMissing {entry : Value × Value} (h : entry ∈ sources.foldl addMissing entries) :
    entry ∈ entries ∨ entry ∈ sources := by
  induction sources generalizing entries with
  | nil => exact .inl h
  | cons first more ih =>
    rcases ih h with hmem | hmem
    · rw [addMissing] at hmem
      split at hmem
      · exact .inl hmem
      · rcases List.mem_append.1 hmem with hmem | hmem
        · exact .inl hmem
        · exact .inr (List.mem_cons.2 (.inl (List.mem_singleton.1 hmem)))
    · exact .inr (List.mem_cons_of_mem _ hmem)

/-! ## Keys that are there once -/

/-- Whether scalars that count as equal are keys of one value. -/
def SingleValued (entries : List (Value × Value)) : Prop :=
  ∀ a b v w, (scalar a, v) ∈ entries → (scalar b, w) ∈ entries → a.same b = true → v = w

/-- Keys that are there once have one value. -/
theorem DistinctKeys.singleValued (h : DistinctKeys entries) : SingleValued entries := by
  induction entries with
  | nil => simp [SingleValued]
  | cons entry more ih =>
    obtain ⟨hentry, hmore⟩ := List.pairwise_cons.1 h
    intro a b v w hv hw hsame
    rcases List.mem_cons.1 hv with hfirst | hv'
    · rcases List.mem_cons.1 hw with hfirst' | hw'
      · exact (Prod.mk.inj (hfirst.trans hfirst'.symm)).2
      · have hdiffer := hentry _ hw'
        rw [← hfirst] at hdiffer
        exact absurd (Scalar.same_symm hsame) (by simpa [same] using hdiffer)
    · rcases List.mem_cons.1 hw with hfirst' | hw'
      · have hdiffer := hentry _ hv'
        rw [← hfirst'] at hdiffer
        exact absurd hsame (by simpa [same] using hdiffer)
      · exact ih hmore a b v w hv' hw' hsame

theorem SingleValued.mono {others : List (Value × Value)} (h : SingleValued entries)
    (hsub : ∀ entry ∈ others, entry ∈ entries) : SingleValued others :=
  fun a b v w hv hw => h a b v w (hsub _ hv) (hsub _ hw)

/-- Where keys have one value, what is found is what some entry has, whichever stands first. -/
theorem SingleValued.lookup_eq_some_iff (h : SingleValued entries) {v : Value} :
    lookup key entries = some v ↔ ∃ k, (scalar k, v) ∈ entries ∧ key.same k = true := by
  constructor
  · exact exists_mem_of_lookup
  · rintro ⟨k, hmem, hk⟩
    cases hfound : lookup key entries with
    | none =>
      have hnot := lookup_eq_none_iff.1 hfound _ hmem
      exact absurd hk (by simpa [same] using hnot)
    | some w =>
      obtain ⟨k', hmem', hk'⟩ := exists_mem_of_lookup hfound
      exact congrArg some (h k' k w v hmem' hmem (Scalar.same_trans (Scalar.same_symm hk') hk))

/-- What is found does not depend on the order of the entries, and not on entries with other keys. -/
theorem SingleValued.lookup_eq {others : List (Value × Value)} (h : SingleValued entries)
    (h' : SingleValued others)
    (hmem : ∀ k v, key.same k = true → ((scalar k, v) ∈ entries ↔ (scalar k, v) ∈ others)) :
    lookup key entries = lookup key others := by
  apply Option.ext
  intro v
  rw [h.lookup_eq_some_iff, h'.lookup_eq_some_iff]
  constructor
  · rintro ⟨k, hk, hsame⟩
    exact ⟨k, (hmem k v hsame).1 hk, hsame⟩
  · rintro ⟨k, hk, hsame⟩
    exact ⟨k, (hmem k v hsame).2 hk, hsame⟩

/-! ## The entries of a mapping -/

/-- What becomes of the entries of a mapping. Without a merge key they stay. Otherwise each key has what
it has there, or else what it has in the first of the mappings that are named; the merge key itself has
what it has in those. -/
inductive TakesOver (entries : List (Value × Value)) : List (Value × Value) → Prop
  | without (hnone : lookup mergeName entries = none) : TakesOver entries entries
  | following {source : Value} {sources merged : List (Value × Value)}
      (hsource : lookup mergeName entries = some source) (hnamed : mergeSource? source = some sources)
      (hown : ∀ key, key ≠ mergeName → lookup key merged = (lookup key entries).or (lookup key sources))
      (hmerge : lookup mergeName merged = lookup mergeName sources)
      (hmem : ∀ entry ∈ merged, entry ∈ entries ∨ entry ∈ sources) : TakesOver entries merged

/-- Moving the last entry to the front keeps the entries. -/
@[simp]
theorem mem_lastFirst {entry : Value × Value} : entry ∈ lastFirst entries ↔ entry ∈ entries := by
  rw [lastFirst]
  rcases List.eq_nil_or_concat entries with rfl | ⟨front, last, rfl⟩
  · simp
  · simp [or_comm]

/-- Nothing is found under the merge key just if no entry has it. -/
theorem lookup_mergeName_eq_none_iff :
    lookup mergeName entries = none ↔ ∀ entry ∈ entries, entry.1 ≠ mergeKey := by
  rw [lookup_eq_none_iff]
  refine forall₂_congr fun entry _ => ?_
  rw [Bool.eq_false_iff, ne_eq, same_mergeName_iff]

/-- Where no merge key is taken out, there is none. -/
theorem ne_mergeKey_of_takeMergeKey? (h : takeMergeKey? entries = none) :
    ∀ entry ∈ entries, entry.1 ≠ mergeKey := by
  induction entries with
  | nil => simp
  | cons entry more ih =>
    obtain ⟨k, v⟩ := entry
    rw [takeMergeKey?] at h
    split at h
    · simp at h
    · next hk => exact List.forall_mem_cons.2 ⟨fun hkey => hk (same_mergeKey_iff.2 hkey), ih (by simpa using h)⟩

/-- As keys are there once, the merge key is not behind the place where it is found. -/
theorem DistinctKeys.ne_mergeKey {before after : List (Value × Value)} {source : Value}
    (h : DistinctKeys (before ++ (mergeKey, source) :: after)) : ∀ entry ∈ after, entry.1 ≠ mergeKey := by
  intro entry hmem hkey
  -- two merge keys would be equal keys
  have hpair := (List.pairwise_cons.1 (List.pairwise_append.1 h).2.1).1 entry hmem
  rw [hkey, same_mergeKey_iff.2 rfl] at hpair
  contradiction

/-- The first merge key is taken out, and the last entry moves to where it was. -/
theorem exists_of_takeMergeKey? {source : Value} {rest : List (Value × Value)}
    (h : takeMergeKey? entries = some (source, rest)) :
    ∃ before after, entries = before ++ (mergeKey, source) :: after ∧ rest = before ++ lastFirst after ∧
      ∀ entry ∈ before, entry.1 ≠ mergeKey := by
  induction entries generalizing rest with
  | nil => simp [takeMergeKey?] at h
  | cons entry more ih =>
    obtain ⟨k, v⟩ := entry
    rw [takeMergeKey?] at h
    split at h
    · next hk =>
      obtain ⟨rfl, rfl⟩ := Prod.mk.inj (Option.some.inj h)
      -- found: only what is behind it is moved
      exact ⟨[], more, by rw [same_mergeKey_iff.1 hk]; rfl, rfl, by simp⟩
    · next hk =>
      rw [Option.map_eq_some_iff] at h
      obtain ⟨⟨source', rest'⟩, hmore, hpair⟩ := h
      obtain ⟨rfl, rfl⟩ := Prod.mk.inj hpair
      obtain ⟨before, after, rfl, rfl, hbefore⟩ := ih hmore
      refine ⟨(k, v) :: before, after, rfl, rfl, List.forall_mem_cons.2 ⟨?_, hbefore⟩⟩
      exact fun hkey => hk (same_mergeKey_iff.2 hkey)

/-- Taking the merge key out moves an entry, but as keys are there once that makes no difference. -/
theorem lookup_takeMergeKey? {source : Value} {rest : List (Value × Value)} (hdistinct : DistinctKeys entries)
    (h : takeMergeKey? entries = some (source, rest)) :
    lookup mergeName entries = some source ∧ lookup mergeName rest = none ∧
      (∀ key, key ≠ mergeName → lookup key rest = lookup key entries) ∧ ∀ entry ∈ rest, entry ∈ entries := by
  obtain ⟨before, after, rfl, rfl, hbefore⟩ := exists_of_takeMergeKey? h
  have hsub : ∀ entry ∈ before ++ lastFirst after, entry ∈ before ++ (mergeKey, source) :: after := by
    intro entry hmem
    rcases List.mem_append.1 hmem with hmem | hmem
    · exact List.mem_append_left _ hmem
    · exact List.mem_append_right _ (List.mem_cons_of_mem _ (mem_lastFirst.1 hmem))
  have hsingle := hdistinct.singleValued
  refine ⟨?_, ?_, ?_, hsub⟩
  · rw [hsingle.lookup_eq_some_iff]
    exact ⟨mergeName, by simp [mergeName, mergeKey, ofString], Scalar.same_refl_string "<<"⟩
  · rw [lookup_mergeName_eq_none_iff, List.forall_mem_append]
    exact ⟨hbefore, fun entry hmem => hdistinct.ne_mergeKey entry (mem_lastFirst.1 hmem)⟩
  · intro key hkey
    -- the entries but the merge key are the same ones, in another order
    refine (hsingle.mono hsub).lookup_eq hsingle fun k v hsame => ⟨hsub _, fun hmem => ?_⟩
    rcases List.mem_append.1 hmem with hmem | hmem
    · exact List.mem_append_left _ hmem
    · rcases List.mem_cons.1 hmem with hentry | hmem
      · obtain ⟨hk, -⟩ := Prod.mk.inj hentry
        rw [mergeKey, ofString, scalar.injEq] at hk
        rw [hk] at hsame
        exact absurd (eq_mergeName_of_same hsame) hkey
      · exact List.mem_append_right _ (mem_lastFirst.2 hmem)

/-- The entries of a mapping with its merge key followed. -/
theorem takesOver_of_mergeEntries? (hdistinct : DistinctKeys entries)
    (h : mergeEntries? entries = some merged) : TakesOver entries merged := by
  rw [mergeEntries?] at h
  cases htake : takeMergeKey? entries with
  | none =>
    rw [htake] at h
    obtain rfl := Option.some.inj h
    exact .without (lookup_mergeName_eq_none_iff.2 (ne_mergeKey_of_takeMergeKey? htake))
  | some taken =>
    obtain ⟨source, rest⟩ := taken
    obtain ⟨hsource, hgone, hown, hsub⟩ := lookup_takeMergeKey? hdistinct htake
    rw [htake, Option.map_eq_some_iff] at h
    obtain ⟨sources, hnamed, rfl⟩ := h
    -- entries of its own come first, and the merge key is gone
    refine .following hsource hnamed ?_ ?_ ?_
    · intro key hkey
      rw [lookup_foldl_addMissing, hown key hkey]
    · rw [lookup_foldl_addMissing, hgone, Option.none_or]
    · intro entry hmem
      rcases mem_foldl_addMissing hmem with hmem | hmem
      · exact .inl (hsub entry hmem)
      · exact .inr hmem

/-! ## All mappings of a value -/

/-- What a value becomes when its merge keys are followed: those of a mapping first, then those inside
what it has. Keys are left alone. -/
inductive MergesTo : Value → Value → Prop
  | scalar (s : Scalar) : MergesTo (scalar s) (scalar s)
  | nonFinite (x : NonFinite) : MergesTo (nonFinite x) (nonFinite x)
  | sequence {items items' : List Value} (hitems : List.Forall₂ MergesTo items items') :
    MergesTo (sequence items) (sequence items')
  | mapping {entries merged entries' : List (Value × Value)} (htakes : TakesOver entries merged)
      (hkeys : entries'.map (·.1) = merged.map (·.1))
      (hvalues : List.Forall₂ MergesTo (merged.map (·.2)) (entries'.map (·.2))) :
    MergesTo (mapping entries) (mapping entries')
  | tagged (tag : String) {content content' : Value} (hcontent : MergesTo content content') :
    MergesTo (tagged tag content) (tagged tag content')

/-- A sequence is at least as deep as each item. -/
theorem depth_le_depthItems {items : List Value} : ∀ item ∈ items, item.depth ≤ depthItems items := by
  induction items with
  | nil => simp
  | cons item more ih =>
    rw [depthItems]
    exact List.forall_mem_cons.2
      ⟨Nat.le_max_left _ _, fun x hx => Nat.le_trans (ih x hx) (Nat.le_max_right _ _)⟩

/-- A mapping is at least as deep as what each entry has. -/
theorem depth_le_depthEntries : ∀ entry ∈ entries, entry.2.depth ≤ depthEntries entries := by
  induction entries with
  | nil => simp
  | cons entry more ih =>
    rw [depthEntries]
    exact List.forall_mem_cons.2
      ⟨Nat.le_max_left _ _, fun x hx => Nat.le_trans (ih x hx) (Nat.le_max_right _ _)⟩

/-- What a mapping has is less deep than the mapping. -/
theorem inside_mapping (h : KeysDistinct (mapping entries)) :
    ∀ entry ∈ entries, entry.2.depth < (mapping entries).depth ∧ KeysDistinct entry.2 := by
  intro entry hmem
  cases h with
  | mapping _ hvalues =>
    have hdepth := depth_le_depthEntries entry hmem
    exact ⟨by rw [depth]; omega, hvalues entry hmem⟩

/-- Going through a list and succeeding says what becomes of each element. -/
theorem forall₂_of_mapM {α β : Type} {f : α → Option β} {as : List α} {bs : List β}
    (h : as.mapM f = some bs) : List.Forall₂ (fun a b => f a = some b) as bs := by
  induction as generalizing bs with
  | nil =>
    obtain rfl : [] = bs := by simpa using h
    exact .nil
  | cons a as ih =>
    rw [List.mapM_cons] at h
    cases ha : f a with
    | none => simp [ha] at h
    | some b =>
      cases has : as.mapM f with
      | none => simp [ha, has] at h
      | some rest =>
        obtain rfl : b :: rest = bs := by simpa [ha, has] using h
        exact .cons ha (ih has)

/-- Going through entries leaves their keys. -/
theorem forall₂_of_mapM_values {f : Value → Option Value}
    (h : entries.mapM (fun (key, value) => return (key, ← f value)) = some merged) :
    List.Forall₂ (fun entry entry' => entry'.1 = entry.1 ∧ f entry.2 = some entry'.2) entries merged := by
  refine (forall₂_of_mapM h).imp fun entry entry' hentry => ?_
  obtain ⟨value', hvalue, hpair⟩ := Option.bind_eq_some_iff.1 hentry
  obtain rfl := Option.some.inj hpair
  exact ⟨rfl, hvalue⟩

/-- What is taken over lies inside what is named. -/
theorem inside_of_mergeSource? {source : Value} (h : mergeSource? source = some sources)
    (hkeys : KeysDistinct source) :
    ∀ entry ∈ sources, entry.2.depth < source.depth ∧ KeysDistinct entry.2 := by
  intro entry hmem
  cases source with
  | mapping entries =>
    obtain rfl := Option.some.inj h
    exact inside_mapping hkeys entry hmem
  | sequence items =>
    rw [mergeSource?, Option.map_eq_map, Option.map_eq_some_iff] at h
    obtain ⟨lists, hlists, rfl⟩ := h
    obtain ⟨list, hlist, hmem⟩ := List.mem_flatten.1 hmem
    -- each list comes from an item, which is a mapping
    obtain ⟨item, hitem, hentries⟩ := exists_of_mem_forall₂ (forall₂_of_mapM hlists) hlist
    cases item with
    | mapping entries =>
      obtain rfl := Option.some.inj hentries
      cases hkeys with
      | sequence hitems =>
        obtain ⟨hdepth, hkeys⟩ := inside_mapping (hitems _ hitem) entry hmem
        have hle := depth_le_depthItems _ hitem
        exact ⟨by rw [depth.eq_def (sequence items)]; dsimp only; omega, hkeys⟩
    | _ => simp [entries?] at hentries
  | _ => simp [mergeSource?] at h

/-- What a mapping has once its merge key is followed is no deeper than what it had before. -/
theorem inside_of_mergeEntries? (h : mergeEntries? entries = some merged) (hkeys : KeysDistinct (mapping entries)) :
    ∀ entry ∈ merged, entry.2.depth < (mapping entries).depth ∧ KeysDistinct entry.2 := by
  have hinside := inside_mapping hkeys
  cases hkeys with
  | mapping hdistinct _ =>
    intro entry hmem
    cases takesOver_of_mergeEntries? hdistinct h with
    | without _ => exact hinside entry hmem
    | following hsource hnamed _ _ hsub =>
      rcases hsub entry hmem with hmem | hmem
      · exact hinside entry hmem
      · obtain ⟨_, hthere, -⟩ := exists_mem_of_lookup hsource
        obtain ⟨hdepth, hkeys⟩ := hinside _ hthere
        -- what is taken over lies in what is named, which lies in an entry of the mapping
        obtain ⟨hdepth', hkeys'⟩ := inside_of_mergeSource? hnamed hkeys entry hmem
        exact ⟨Nat.lt_trans hdepth' hdepth, hkeys'⟩

/-- A mapping first takes over what it names, and then each of its values is looked at. -/
theorem mergeWithin?_mapping (rounds : Nat) (entries : List (Value × Value)) :
    mergeWithin? (rounds + 1) (mapping entries) = do
      let entries ← mergeEntries? entries
      let entries ← entries.mapM fun (key, value) => return (key, ← mergeWithin? rounds value)
      return mapping entries := by
  rw [mergeWithin?]

/-- Whether the merge keys of a value are followed in some rounds, of which there are enough. -/
structure MergesWithin (rounds : Nat) (v w : Value) : Prop where
  merge : mergeWithin? rounds v = some w
  room : v.depth ≤ rounds
  keys : KeysDistinct v

section MergesWithin

variable {rounds : Nat} {v w : Value}

/-- With no rounds left only values without anything inside are reached. -/
theorem MergesWithin.scalar_or_nonFinite (h : MergesWithin 0 v w) :
    (∃ s, v = scalar s ∧ w = scalar s) ∨ ∃ x, v = nonFinite x ∧ w = nonFinite x := by
  obtain ⟨hmerge, hroom, -⟩ := h
  cases v with
  | scalar s => exact .inl ⟨s, rfl, (Option.some.inj hmerge).symm⟩
  | nonFinite x => exact .inr ⟨x, rfl, (Option.some.inj hmerge).symm⟩
  | _ => simp [depth] at hroom

/-- A tag is kept, and its content has a round less. -/
theorem MergesWithin.tagged {tag : String} {content : Value} (h : MergesWithin (rounds + 1) (tagged tag content) w) :
    ∃ content', w = Value.tagged tag content' ∧ MergesWithin rounds content content' := by
  obtain ⟨hmerge, hroom, hkeys⟩ := h
  rw [mergeWithin?, Option.map_eq_map, Option.map_eq_some_iff] at hmerge
  obtain ⟨content', hcontent, rfl⟩ := hmerge
  rw [depth] at hroom
  cases hkeys with
  | tagged _ hkeys => exact ⟨content', rfl, hcontent, by omega, hkeys⟩

/-- The items of a sequence have a round less each. -/
theorem MergesWithin.sequence {items : List Value} (h : MergesWithin (rounds + 1) (sequence items) w) :
    ∃ items', w = Value.sequence items' ∧ List.Forall₂ (MergesWithin rounds) items items' := by
  obtain ⟨hmerge, hroom, hkeys⟩ := h
  rw [mergeWithin?, Option.map_eq_map, Option.map_eq_some_iff] at hmerge
  obtain ⟨items', hitems, rfl⟩ := hmerge
  rw [depth] at hroom
  cases hkeys with
  | sequence hkeys =>
    refine ⟨items', rfl, ((List.forall₂_and_left _ _).2 ⟨fun _ => id, forall₂_of_mapM hitems⟩).imp ?_⟩
    rintro item item' ⟨hmem, hitem⟩
    have hle := depth_le_depthItems item hmem
    exact ⟨hitem, by omega, hkeys item hmem⟩

/-- What has been taken over is less deep than the mapping, so a round less is enough for it. -/
theorem MergesWithin.mapping {entries : List (Value × Value)} (h : MergesWithin (rounds + 1) (mapping entries) w) :
    ∃ merged entries', w = Value.mapping entries' ∧ DistinctKeys entries ∧
      mergeEntries? entries = some merged ∧
      List.Forall₂ (fun entry entry' => entry'.1 = entry.1 ∧ MergesWithin rounds entry.2 entry'.2)
        merged entries' := by
  obtain ⟨hmerge, hroom, hkeys⟩ := h
  rw [mergeWithin?_mapping] at hmerge
  obtain ⟨merged, hmerged, hmerge⟩ := Option.bind_eq_some_iff.1 hmerge
  obtain ⟨entries', hentries, hw⟩ := Option.bind_eq_some_iff.1 hmerge
  obtain rfl := Option.some.inj hw
  have hinside := inside_of_mergeEntries? hmerged hkeys
  cases hkeys with
  | mapping hdistinct _ =>
    refine ⟨merged, entries', rfl, hdistinct, hmerged, ?_⟩
    refine ((List.forall₂_and_left _ _).2 ⟨fun _ => id, forall₂_of_mapM_values hentries⟩).imp ?_
    rintro entry entry' ⟨hmem, hkey, hvalue⟩
    obtain ⟨hless, hkeys⟩ := hinside entry hmem
    exact ⟨hkey, hvalue, by omega, hkeys⟩

end MergesWithin

/-- As many rounds as there are collections inside each other are enough to follow all merge keys. -/
theorem mergesTo_of_mergesWithin {rounds : Nat} {v w : Value} (h : MergesWithin rounds v w) : MergesTo v w := by
  -- on the rounds and not on the value: what a mapping takes over is not a part of it
  induction rounds generalizing v w with
  | zero =>
    rcases h.scalar_or_nonFinite with ⟨s, rfl, rfl⟩ | ⟨x, rfl, rfl⟩
    · exact .scalar s
    · exact .nonFinite x
  | succ rounds ih =>
    cases v with
    | scalar s =>
      obtain rfl := Option.some.inj h.merge
      exact .scalar s
    | nonFinite x =>
      obtain rfl := Option.some.inj h.merge
      exact .nonFinite x
    | tagged tag content =>
      obtain ⟨content', rfl, hcontent⟩ := h.tagged
      exact .tagged tag (ih hcontent)
    | sequence items =>
      obtain ⟨items', rfl, hitems⟩ := h.sequence
      exact .sequence (hitems.imp fun _ _ hitem => ih hitem)
    | mapping entries =>
      obtain ⟨merged, entries', rfl, hdistinct, hmerged, hentries⟩ := h.mapping
      refine .mapping (takesOver_of_mergeEntries? hdistinct hmerged) ?_ ?_
      · rw [← List.forall₂_eq_eq_eq, List.forall₂_map_left_iff, List.forall₂_map_right_iff]
        exact List.Forall₂.flip (hentries.imp fun _ _ hentry => hentry.1)
      · rw [List.forall₂_map_left_iff, List.forall₂_map_right_iff]
        exact hentries.imp fun _ _ hentry => ih hentry.2

end Yaml.Value

end PartialResponse
