import Mathlib.Data.List.Forall2
import PartialResponse.Yaml.Value.Basic

/-!
# PartialResponse.Proofs.Yaml.Keys — the keys of the mappings of a text

A mapping is put together entry by entry, and a key that is there already is a fault.
So no mapping of a text has a key twice, whatever aliases are followed on the way.
-/

namespace PartialResponse.Yaml.Value

/-- Whether no key is there twice. -/
def DistinctKeys (entries : List (Value × Value)) : Prop :=
  entries.Pairwise fun entry later => later.1.same entry.1 = false

/-- Whether no mapping of a value has a key twice. -/
inductive KeysDistinct : Value → Prop
  | scalar (s : Scalar) : KeysDistinct (scalar s)
  | nonFinite (x : NonFinite) : KeysDistinct (nonFinite x)
  | sequence {items : List Value} (hitems : ∀ item ∈ items, KeysDistinct item) : KeysDistinct (sequence items)
  | mapping {entries : List (Value × Value)} (hkeys : DistinctKeys entries)
      (hvalues : ∀ entry ∈ entries, KeysDistinct entry.2) : KeysDistinct (mapping entries)
  | tagged (tag : String) {content : Value} (hcontent : KeysDistinct content) :
    KeysDistinct (tagged tag content)

/-! ## Steps that count aliases -/

section Counting

variable {α β : Type} {x : StateT Nat (Except Fault) α} {f : α → StateT Nat (Except Fault) β} {n n' : Nat}

/-- What follows a step starts with what has been counted in it. -/
theorem bind_apply {a : α} (h : x n = .ok (a, n')) : (x >>= f) n = f a n' := by
  show StateT.bind x f n = f a n'
  rw [StateT.bind, h]
  rfl

/-- Where two steps succeed, the first does, and the second from there. -/
theorem exists_of_bind {b : β} (h : (x >>= f) n = .ok (b, n')) :
    ∃ a m, x n = .ok (a, m) ∧ f a m = .ok (b, n') := by
  cases hx : x n with
  | error fault =>
    have herror : (x >>= f) n = .error fault := by
      show StateT.bind x f n = .error fault
      rw [StateT.bind, hx]
      rfl
    rw [herror] at h
    simp at h
  | ok result =>
    obtain ⟨a, m⟩ := result
    rw [bind_apply hx] at h
    exact ⟨a, m, rfl, h⟩

/-- A step that does nothing gives what it is given. -/
theorem pure_apply_inj {a b : α} (h : (pure a : StateT Nat (Except Fault) α) n = .ok (b, n')) : a = b :=
  (Prod.mk.inj (Except.ok.inj h)).1

/-- A step that counts nothing succeeds by itself. -/
theorem eq_ok_of_lift {e : Except Fault α} {a : α}
    (h : (liftM e : StateT Nat (Except Fault) α) n = .ok (a, n')) : e = .ok a := by
  cases e with
  | error fault => cases h
  | ok b =>
    obtain rfl : b = a := pure_apply_inj h
    rfl

end Counting

/-! ## The kinds of nodes

`ofNode` takes a depth and a node at once, so its equations are stated for each kind of node. -/

variable {g : NodeGraph}

/-- A scalar needs no room. -/
theorem ofNode_scalar (depth : Nat) (tag : Option Tag) (text : String) (plain : Bool) :
    ofNode g depth (.scalar tag text plain) = do return underTag tag (← ofScalar tag text plain) := by
  cases depth <;> (delta ofNode Nat.brecOn Nat.brecOn.go; rfl)

/-- The items of a sequence have one level less to go. -/
theorem ofNode_sequence (depth : Nat) (tag : Option Tag) (items : List Node) :
    ofNode g (depth + 1) (.sequence tag items) = do
      return underTag tag (sequence (← items.mapM (ofNode g depth))) := by
  delta ofNode Nat.brecOn Nat.brecOn.go
  rfl

/-- The keys and values of a mapping have one level less to go, and entries are added in turn. -/
theorem ofNode_mapping (depth : Nat) (tag : Option Tag) (pairs : List (Node × Node)) :
    ofNode g (depth + 1) (.mapping tag pairs) = do
      let entries ← pairs.foldlM (fun entries (key, value) => do
        addEntry entries (← ofNode g depth key) (← ofNode g depth value)) []
      return underTag tag (mapping entries) := by
  delta ofNode Nat.brecOn Nat.brecOn.go
  rfl

/-- Without room for collections there are none. -/
theorem ofNode_tooDeep {node : Node} (h : (∃ tag items, node = .sequence tag items) ∨
    ∃ tag pairs, node = .mapping tag pairs) : ofNode g 0 node = throw .tooDeep := by
  rcases h with ⟨tag, items, rfl⟩ | ⟨tag, pairs, rfl⟩ <;> (delta ofNode Nat.brecOn Nat.brecOn.go; rfl)

/-- An alias is followed first. What it leads to is read like any node, unless it is an alias again.
-/
theorem exists_ofNode_eq (g : NodeGraph) (depth : Nat) :
    ∃ read : Node → StateT Nat (Except Fault) Value,
      (∀ node, ofNode g depth node = g.target node >>= read) ∧
      ∀ number, read (.alias number) = throw .unknownAlias := by
  cases depth with
  | zero => exact ⟨_, fun _ => by delta ofNode Nat.brecOn Nat.brecOn.go; rfl, fun _ => rfl⟩
  | succ depth => exact ⟨_, fun _ => by delta ofNode Nat.brecOn Nat.brecOn.go; rfl, fun _ => rfl⟩

/-- What a node leads to is the node itself, unless it is an alias. -/
theorem target_eq {node target : Node} {n n' : Nat} (h : g.target node n = .ok (target, n')) :
    target = node ∨ ∃ number, node = .alias number ∧ g.anchored.lookup number = some target := by
  cases node with
  | «alias» number =>
    rw [NodeGraph.target] at h
    obtain ⟨followed, m, -, h⟩ := exists_of_bind h
    split at h
    · cases h
    · obtain ⟨_, m', -, h⟩ := exists_of_bind h
      cases hfound : g.anchored.lookup number with
      | none =>
        rw [hfound] at h
        cases h
      | some found =>
        rw [hfound] at h
        obtain rfl := pure_apply_inj h
        exact .inr ⟨number, rfl, hfound⟩
  | _ => exact .inl (pure_apply_inj h).symm

/-- An alias stands for what the node stands for that it leads to. -/
theorem exists_target {depth : Nat} {node : Node} {v : Value} {n n' : Nat}
    (h : ofNode g depth node n = .ok (v, n')) :
    ∃ target m, (target = node ∨ ∃ number, node = .alias number ∧ g.anchored.lookup number = some target) ∧
      (∀ number, target ≠ .alias number) ∧ ofNode g depth target m = .ok (v, n') := by
  obtain ⟨read, hread, halias⟩ := exists_ofNode_eq g depth
  rw [hread] at h
  obtain ⟨target, m, hleads, htarget⟩ := exists_of_bind h
  -- what an alias leads to is no alias, or it could not be read
  refine ⟨target, m, target_eq hleads, ?_, ?_⟩
  · rintro number rfl
    rw [halias] at htarget
    cases htarget
  · rw [hread]
    cases target with
    | «alias» number =>
      rw [halias] at htarget
      cases htarget
    | _ => exact htarget

/-! ## All values of a text -/

/-- A tag adds no keys. -/
theorem keysDistinct_underTag {tag : Option Tag} {v : Value} (h : KeysDistinct v) :
    KeysDistinct (underTag tag v) := by
  unfold underTag
  split
  · exact .tagged _ h
  · exact h

/-- An atom has no keys. -/
theorem keysDistinct_ofAtom {atom : Atom} {v : Value} (h : ofAtom atom = .ok v) : KeysDistinct v := by
  cases atom with
  | finite s =>
    obtain rfl := Except.ok.inj h
    exact .scalar s
  | nonFinite x =>
    obtain rfl := Except.ok.inj h
    exact .nonFinite x
  | oversized => cases h

/-- A scalar has no keys, whatever its tag asks for. -/
theorem keysDistinct_ofScalar {tag : Option Tag} {text : String} {plain : Bool} {v : Value}
    (h : ofScalar tag text plain = .ok v) : KeysDistinct v := by
  -- the tags that ask for a kind of scalar refuse a text of another kind
  have hfitting : ∀ {atom : Option Atom}, ofFitting atom = .ok v → KeysDistinct v := by
    intro atom hatom
    cases atom with
    | none => cases hatom
    | some atom => exact keysDistinct_ofAtom hatom
  unfold ofScalar at h
  split at h
  · exact hfitting h
  · exact hfitting h
  · exact hfitting h
  · exact hfitting h
  · obtain rfl := Except.ok.inj h
    exact .scalar _
  · split at h
    · exact keysDistinct_ofAtom h
    · obtain rfl := Except.ok.inj h
      exact .scalar _

/-- One more entry. -/
theorem distinctKeys_addEntry {entries entries' : List (Value × Value)} {key value : Value}
    (hkeys : DistinctKeys entries) (h : addEntry entries key value = .ok entries') :
    DistinctKeys entries' ∧ entries' = entries ++ [(key, value)] := by
  rw [addEntry] at h
  split at h
  · cases h
  · next hnew =>
    obtain rfl := Except.ok.inj h
    refine ⟨List.pairwise_append.2 ⟨hkeys, List.pairwise_singleton _ _, ?_⟩, rfl⟩
    intro entry hmem later hlater
    obtain rfl := List.mem_singleton.1 hlater
    have hall : ∀ entry ∈ entries, key.same entry.1 = false := by simpa [hasKey] using hnew
    exact hall entry hmem

variable {read : Node → StateT Nat (Except Fault) Value} {n n' : Nat}

/-- Whether a node can be read as a value, whatever has been counted so far. -/
def ReadAs (read : Node → StateT Nat (Except Fault) Value) (node : Node) (v : Value) : Prop :=
  ∃ n n', read node n = .ok (v, n')

/-- The items of a sequence are read one by one. -/
theorem readAs_of_mapM {items : List Node} {values : List Value}
    (h : items.mapM read n = .ok (values, n')) : List.Forall₂ (ReadAs read) items values := by
  induction items generalizing n n' values with
  | nil =>
    obtain rfl : [] = values := pure_apply_inj h
    exact .nil
  | cons item more ih =>
    rw [List.mapM_cons] at h
    obtain ⟨v, m, hv, h⟩ := exists_of_bind h
    obtain ⟨rest, m', hrest, h⟩ := exists_of_bind h
    obtain rfl : v :: rest = values := pure_apply_inj h
    exact .cons ⟨_, _, hv⟩ (ih hrest)

/-- The entries of a mapping are read pair by pair, and go behind those that are there. -/
theorem readAs_of_foldlM {pairs : List (Node × Node)} {done entries : List (Value × Value)}
    (hdone : DistinctKeys done)
    (h : (pairs.foldlM (fun entries (key, value) => do
      addEntry entries (← read key) (← read value)) done : StateT Nat (Except Fault) _) n = .ok (entries, n')) :
    DistinctKeys entries ∧ ∃ more, entries = done ++ more ∧
      List.Forall₂ (fun pair entry => ReadAs read pair.1 entry.1 ∧ ReadAs read pair.2 entry.2) pairs more := by
  induction pairs generalizing n done with
  | nil =>
    obtain rfl : done = entries := pure_apply_inj h
    exact ⟨hdone, [], (List.append_nil done).symm, .nil⟩
  | cons pair more ih =>
    obtain ⟨key, value⟩ := pair
    rw [List.foldlM_cons] at h
    obtain ⟨done', m, hfirst, h⟩ := exists_of_bind h
    obtain ⟨k, m₁, hk, hfirst⟩ := exists_of_bind hfirst
    obtain ⟨v, m₂, hv, hfirst⟩ := exists_of_bind hfirst
    obtain ⟨hdone', rfl⟩ := distinctKeys_addEntry hdone (eq_ok_of_lift hfirst)
    obtain ⟨hentries, rest, rfl, hrest⟩ := ih hdone' h
    refine ⟨hentries, (k, v) :: rest, List.append_assoc _ _ _, .cons ⟨⟨_, _, hk⟩, ⟨_, _, hv⟩⟩ hrest⟩

/-- What stands on the right stands across from something. -/
theorem exists_of_mem_forall₂ {α β : Type} {R : α → β → Prop} {as : List α} {bs : List β}
    (h : List.Forall₂ R as bs) {b : β} (hb : b ∈ bs) : ∃ a ∈ as, R a b := by
  induction h with
  | nil => simp at hb
  | cons hab _ ih =>
    rcases List.mem_cons.1 hb with rfl | hb
    · exact ⟨_, List.mem_cons_self, hab⟩
    · obtain ⟨a, ha, hab⟩ := ih hb
      exact ⟨a, List.mem_cons_of_mem _ ha, hab⟩

/-- A scalar has no keys, with or without a tag in front. -/
theorem keysDistinct_ofNode_scalar {depth : Nat} {tag : Option Tag} {text : String} {plain : Bool} {v : Value}
    (h : ofNode g depth (.scalar tag text plain) n = .ok (v, n')) : KeysDistinct v := by
  rw [ofNode_scalar] at h
  obtain ⟨w, m, hw, h⟩ := exists_of_bind h
  obtain rfl := pure_apply_inj h
  exact keysDistinct_underTag (keysDistinct_ofScalar (eq_ok_of_lift hw))

/-- No node stands for a value with a key twice, whatever aliases are followed on the way. -/
theorem keysDistinct_ofNode {depth : Nat} {node : Node} {v : Value}
    (h : ofNode g depth node n = .ok (v, n')) : KeysDistinct v := by
  -- on the depth and not on the node: an alias leads to a node that is no part of it
  induction depth generalizing node n v n' with
  | zero =>
    obtain ⟨target, m, -, hne, h⟩ := exists_target h
    cases target with
    | «alias» number => exact absurd rfl (hne number)
    | scalar tag text plain => exact keysDistinct_ofNode_scalar h
    | sequence tag items =>
      rw [ofNode_tooDeep (.inl ⟨tag, items, rfl⟩)] at h
      cases h
    | mapping tag pairs =>
      rw [ofNode_tooDeep (.inr ⟨tag, pairs, rfl⟩)] at h
      cases h
  | succ depth ih =>
    obtain ⟨target, m, -, hne, h⟩ := exists_target h
    cases target with
    | «alias» number => exact absurd rfl (hne number)
    | scalar tag text plain => exact keysDistinct_ofNode_scalar h
    | sequence tag items =>
      rw [ofNode_sequence] at h
      obtain ⟨values, m', hvalues, h⟩ := exists_of_bind h
      obtain rfl := pure_apply_inj h
      refine keysDistinct_underTag (.sequence fun value hmem => ?_)
      obtain ⟨item, -, _, _, hitem⟩ := exists_of_mem_forall₂ (readAs_of_mapM hvalues) hmem
      exact ih hitem
    | mapping tag pairs =>
      rw [ofNode_mapping] at h
      obtain ⟨entries, m', hentries, h⟩ := exists_of_bind h
      obtain rfl := pure_apply_inj h
      obtain ⟨hkeys, _, rfl, hall⟩ := readAs_of_foldlM .nil hentries
      refine keysDistinct_underTag (.mapping hkeys fun entry hmem => ?_)
      obtain ⟨pair, -, -, _, _, hvalue⟩ := exists_of_mem_forall₂ hall hmem
      exact ih hvalue

/-- The value of a document is that of its outermost node. -/
theorem readAs_of_ofGraph {v : Value} (h : ofGraph g = .ok v) : ReadAs (ofNode g maxDepth) g.root v := by
  rw [ofGraph] at h
  cases hnode : (ofNode g maxDepth g.root).run 0 with
  | error fault =>
    rw [hnode] at h
    cases h
  | ok result =>
    obtain ⟨w, n⟩ := result
    rw [hnode] at h
    obtain rfl : w = v := Except.ok.inj h
    exact ⟨0, n, hnode⟩

/-- No mapping of a document has a key twice. -/
theorem keysDistinct_ofGraph {v : Value} (h : ofGraph g = .ok v) : KeysDistinct v := by
  obtain ⟨_, _, hroot⟩ := readAs_of_ofGraph h
  exact keysDistinct_ofNode hroot

end PartialResponse.Yaml.Value
