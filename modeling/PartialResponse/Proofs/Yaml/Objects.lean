import PartialResponse.Proofs.Tree.Properties
import PartialResponse.Proofs.Yaml.MergeKeys
import PartialResponse.Yaml.Value.Tree

/-!
# PartialResponse.Proofs.Yaml.Objects — the objects that mappings become

Once the merge key of a mapping is followed, its entries become properties one by one,
and these are set in an object one after the other. Two things can happen on the way.
Taking out the merge key moves an entry, and keys that differ may become one name.
What holds of each of these steps is carried to every mapping of a value here.
-/

namespace PartialResponse

namespace Yaml.Value

variable {entries merged own sources : List (Value × Value)}

/-! ## Trees of values -/

/-- Whether the key of an entry becomes a name. -/
def Named (entry : Value × Value) (name : String) : Prop :=
  keyText entry.1 = .ok name

/-- Whether an entry becomes a property. -/
def BecomesProperty (entry : Value × Value) (part : String × Tree) : Prop :=
  Named entry part.1 ∧ entry.2.toTree = .ok part.2

theorem exists_of_bind_ok {ε α β : Type} {x : Except ε α} {f : α → Except ε β} {b : β}
    (h : (x >>= f) = .ok b) : ∃ a, x = .ok a ∧ f a = .ok b := by
  cases x with
  | error cause => cases h
  | ok a => exact ⟨a, rfl, h⟩

theorem forall₂_of_itemsToTree {items : List Value} {trees : List Tree} (h : itemsToTree items = .ok trees) :
    List.Forall₂ (fun item tree => item.toTree = .ok tree) items trees := by
  induction items generalizing trees with
  | nil =>
    obtain rfl := Except.ok.inj h
    exact .nil
  | cons item more ih =>
    rw [itemsToTree] at h
    obtain ⟨tree, hitem, h⟩ := exists_of_bind_ok h
    obtain ⟨rest, hmore, h⟩ := exists_of_bind_ok h
    obtain rfl := Except.ok.inj h
    exact .cons hitem (ih hmore)

/-- Entries become properties one by one, which are set in this order. -/
theorem exists_of_entriesToTree {done properties : Properties Tree}
    (h : entriesToTree done entries = .ok properties) :
    ∃ parts, List.Forall₂ BecomesProperty entries parts ∧ properties = done.setAll parts := by
  induction entries generalizing done with
  | nil => exact ⟨[], .nil, (Except.ok.inj h).symm⟩
  | cons entry more ih =>
    obtain ⟨key, value⟩ := entry
    rw [entriesToTree] at h
    obtain ⟨name, hkey, h⟩ := exists_of_bind_ok h
    obtain ⟨tree, hvalue, h⟩ := exists_of_bind_ok h
    obtain ⟨parts, hparts, rfl⟩ := ih h
    exact ⟨(name, tree) :: parts, .cons ⟨hkey, hvalue⟩ hparts, rfl⟩

theorem exists_of_toTree_sequence {items : List Value} {tree : Tree} (h : (sequence items).toTree = .ok tree) :
    ∃ trees, tree = .array trees ∧ List.Forall₂ (fun item tree => item.toTree = .ok tree) items trees := by
  rw [toTree] at h
  obtain ⟨trees, hitems, h⟩ := exists_of_bind_ok h
  exact ⟨trees, (Except.ok.inj h).symm, forall₂_of_itemsToTree hitems⟩

theorem exists_of_toTree_mapping {tree : Tree} (h : (mapping entries).toTree = .ok tree) :
    ∃ parts, tree = .object (Properties.setAll [] parts) ∧ List.Forall₂ BecomesProperty entries parts := by
  rw [toTree] at h
  obtain ⟨_, hentries, h⟩ := exists_of_bind_ok h
  obtain ⟨parts, hparts, rfl⟩ := exists_of_entriesToTree hentries
  exact ⟨parts, (Except.ok.inj h).symm, hparts⟩

/-! ## Every mapping of a value -/

/-- What becomes of a mapping on the way to its object. -/
structure Conversion where
  /-- The entries as they are written. -/
  entries : List (Value × Value)
  /-- The entries once the merge key is followed. -/
  merged : List (Value × Value)
  /-- The properties that these become one by one. -/
  parts : Properties Tree
  /-- The properties of the object. -/
  properties : Properties Tree

/-- Whether a value becomes a tree, and every mapping of it an object in a certain way. -/
inductive EveryMapping (P : Conversion → Prop) : Value → Tree → Prop
  | scalar (s : Scalar) : EveryMapping P (scalar s) (.scalar s)
  | sequence {items : List Value} {trees : List Tree} (hitems : List.Forall₂ (EveryMapping P) items trees) :
    EveryMapping P (sequence items) (.array trees)
  | mapping {entries merged : List (Value × Value)} {parts properties : Properties Tree}
      (htakes : TakesOver entries merged)
      (hnames : List.Forall₂ Named merged (Properties.names parts))
      (hvalues : List.Forall₂ (EveryMapping P) (merged.map (·.2)) (parts.map (·.2)))
      (hproperties : ∀ property ∈ properties, property ∈ parts)
      (hobject : P ⟨entries, merged, parts, properties⟩) :
    EveryMapping P (mapping entries) (.object properties)
  | tagged (tag : String) {content : Value} {tree : Tree} (hcontent : EveryMapping P content tree) :
    EveryMapping P (tagged tag content) tree

theorem forall₂_trans {α β γ : Type} {R : α → β → Prop} {S : β → γ → Prop} {T : α → γ → Prop}
    {as : List α} {bs : List β} {cs : List γ} (hR : List.Forall₂ R as bs) (hS : List.Forall₂ S bs cs)
    (hT : ∀ a b c, R a b → S b c → T a c) : List.Forall₂ T as cs := by
  induction hR generalizing cs with
  | nil =>
    cases hS
    exact .nil
  | cons hab _ ih =>
    cases hS with
    | cons hbc hmore => exact .cons (hT _ _ _ hab hbc) (ih hmore)

/-- How the object of each mapping comes about: the merge key is followed, the entries become properties,
and these are set. -/
def Conversion.ComesAbout (c : Conversion) : Prop :=
  DistinctKeys c.entries ∧ mergeEntries? c.entries = some c.merged ∧
    List.Forall₂ Named c.merged (Properties.names c.parts) ∧ c.properties = Properties.setAll [] c.parts

/-- What holds of each object that comes about holds of every mapping. -/
theorem everyMapping_of_mergesWithin {P : Conversion → Prop} (hP : ∀ c : Conversion, c.ComesAbout → P c)
    {rounds : Nat} {v w : Value} {tree : Tree} (h : MergesWithin rounds v w) (htree : w.toTree = .ok tree) :
    EveryMapping P v tree := by
  induction rounds generalizing v w tree with
  | zero =>
    rcases h.scalar_or_nonFinite with ⟨s, rfl, rfl⟩ | ⟨x, rfl, rfl⟩
    · obtain rfl := Except.ok.inj htree
      exact .scalar s
    · cases htree
  | succ rounds ih =>
    cases v with
    | scalar s =>
      obtain rfl := Option.some.inj h.merge
      obtain rfl := Except.ok.inj htree
      exact .scalar s
    | nonFinite x =>
      obtain rfl := Option.some.inj h.merge
      cases htree
    | tagged tag content =>
      obtain ⟨content', rfl, hcontent⟩ := h.tagged
      exact .tagged tag (ih hcontent htree)
    | sequence items =>
      obtain ⟨items', rfl, hitems⟩ := h.sequence
      obtain ⟨trees, rfl, htrees⟩ := exists_of_toTree_sequence htree
      exact .sequence (forall₂_trans hitems htrees fun _ _ _ hitem htree => ih hitem htree)
    | mapping entries =>
      obtain ⟨merged, entries', rfl, hdistinct, hmerged, hentries⟩ := h.mapping
      obtain ⟨parts, rfl, hparts⟩ := exists_of_toTree_mapping htree
      -- keys are left alone when merge keys are followed further inside
      have hnames : List.Forall₂ Named merged (Properties.names parts) := by
        rw [Properties.names, List.forall₂_map_right_iff]
        refine forall₂_trans hentries hparts fun entry entry' part hentry hpart => ?_
        rw [Named, ← hentry.1]
        exact hpart.1
      refine .mapping (takesOver_of_mergeEntries? hdistinct hmerged) hnames ?_ (fun _ => Properties.mem_of_mem_setAll)
        (hP _ ⟨hdistinct, hmerged, hnames, rfl⟩)
      rw [List.forall₂_map_left_iff, List.forall₂_map_right_iff]
      exact forall₂_trans hentries hparts fun _ _ _ hentry hpart => ih hentry.2 hpart.2

/-! ## The order of the properties -/

/-- How the entries of a mapping are arranged when its merge key is taken out. They keep their order if
there is none, and if at most one entry is behind it. Otherwise the last one moves into its place. -/
inductive Arranged : List (Value × Value) → List (Value × Value) → Prop
  | without {entries : List (Value × Value)} : Arranged entries entries
  | kept {before after : List (Value × Value)} (source : Value) (hfew : after.length ≤ 1) :
    Arranged (before ++ (mergeKey, source) :: after) (before ++ after)
  | moved {before middle : List (Value × Value)} (source : Value) (last : Value × Value) (hmiddle : middle ≠ []) :
    Arranged (before ++ (mergeKey, source) :: (middle ++ [last])) (before ++ last :: middle)

/-- Whether the properties that a mapping has itself come first in its object, as they are arranged. -/
def InOrder (c : Conversion) : Prop :=
  ∃ own written, Arranged c.entries own ∧ (∀ entry ∈ own, entry.1 ≠ mergeKey) ∧
    List.Forall₂ Named own written ∧ written.eraseDups <+: Properties.names c.properties

theorem arranged_lastFirst {before after : List (Value × Value)} (source : Value) :
    Arranged (before ++ (mergeKey, source) :: after) (before ++ lastFirst after) := by
  rcases List.eq_nil_or_concat after with rfl | ⟨middle, last, rfl⟩
  · exact .kept source (Nat.zero_le 1)
  · have hlast : lastFirst (middle ++ [last]) = last :: middle := by simp [lastFirst]
    rw [List.concat_eq_append, hlast]
    by_cases hmiddle : middle = []
    · subst hmiddle
      exact .kept source (Nat.le_refl 1)
    · exact .moved source last hmiddle

/-- Entries that are taken over go behind those of the mapping. -/
theorem exists_foldl_addMissing (own sources : List (Value × Value)) :
    ∃ inherited, sources.foldl addMissing own = own ++ inherited := by
  induction sources generalizing own with
  | nil => exact ⟨[], (List.append_nil own).symm⟩
  | cons entry more ih =>
    rw [List.foldl_cons, addMissing]
    split
    · exact ih own
    · obtain ⟨inherited, hinherited⟩ := ih (own ++ [entry])
      exact ⟨entry :: inherited, by rw [hinherited, List.append_assoc, List.singleton_append]⟩

theorem exists_own {entries merged : List (Value × Value)} (hdistinct : DistinctKeys entries)
    (h : mergeEntries? entries = some merged) :
    ∃ own inherited, merged = own ++ inherited ∧ Arranged entries own ∧ ∀ entry ∈ own, entry.1 ≠ mergeKey := by
  rw [mergeEntries?] at h
  cases htake : takeMergeKey? entries with
  | none =>
    rw [htake] at h
    obtain rfl := Option.some.inj h
    exact ⟨entries, [], (List.append_nil entries).symm, .without, ne_mergeKey_of_takeMergeKey? htake⟩
  | some taken =>
    obtain ⟨source, rest⟩ := taken
    rw [htake, Option.map_eq_some_iff] at h
    obtain ⟨sources, -, rfl⟩ := h
    obtain ⟨before, after, rfl, rfl, hbefore⟩ := exists_of_takeMergeKey? htake
    obtain ⟨inherited, hinherited⟩ := exists_foldl_addMissing (before ++ lastFirst after) sources
    refine ⟨_, inherited, hinherited, arranged_lastFirst source, List.forall_mem_append.2 ⟨hbefore, ?_⟩⟩
    exact fun entry hmem => hdistinct.ne_mergeKey entry (mem_lastFirst.1 hmem)

theorem inOrder_of_comesAbout {c : Conversion} (h : c.ComesAbout) : InOrder c := by
  obtain ⟨hdistinct, hmerged, hnames, hproperties⟩ := h
  obtain ⟨own, inherited, hsplit, harranged, hown⟩ := exists_own hdistinct hmerged
  rw [hsplit] at hnames
  -- what is taken over stands behind, so the names of the own entries are the first ones
  have hwritten := List.forall₂_take own.length hnames
  rw [List.take_left] at hwritten
  refine ⟨own, _, harranged, hown, hwritten, ?_⟩
  rw [hproperties, Properties.names_setAll]
  exact Properties.eraseDups_prefix (List.take_prefix _ _)

/-! ## One property for each name -/

/-- Whether an object has one property for each text of a key, however many entries have it. -/
structure OnePerName (c : Conversion) : Prop where
  /-- Keys that are the same value are not there. -/
  distinct : DistinctKeys c.entries
  /-- A name stands where it comes first. -/
  names : Properties.names c.properties = (Properties.names c.parts).eraseDups
  /-- The value is the one that comes last. -/
  value : ∀ name, Properties.get? c.properties name = Properties.get? c.parts.reverse name
  /-- All entries are kept just if the texts of their keys differ. -/
  count : c.properties.length = c.merged.length ↔ (Properties.names c.parts).Nodup
  kept : (Properties.names c.parts).Nodup → c.properties = c.parts

theorem onePerName_of_comesAbout {c : Conversion} (h : c.ComesAbout) : OnePerName c := by
  obtain ⟨hdistinct, -, hnames, hproperties⟩ := h
  refine ⟨hdistinct, ?_, ?_, ?_, ?_⟩ <;> rw [hproperties]
  · exact Properties.names_setAll c.parts
  · exact Properties.get?_setAll c.parts
  · rw [hnames.length_eq, Properties.names, List.length_map, Properties.length_setAll_eq_iff, Properties.names]
  · exact Properties.setAll_eq_self

end Yaml.Value

end PartialResponse
