import PartialResponse.Proofs.Yaml.Keys

/-!
# PartialResponse.Proofs.Yaml.Meaning — what the nodes of a document stand for

A value has the shape of its node. The items of a sequence and the entries of a mapping
stand in the order in which their nodes stand in the text. An alias stands for what the
node stands for that has its number, wherever that node is.
-/

namespace PartialResponse.Yaml

open Value

/-- What a node of a document stands for. -/
inductive NodeGraph.Means (g : NodeGraph) : Node → Value → Prop
  | «alias» {number : Nat} {target : Node} {v : Value} (htarget : g.anchored.lookup number = some target)
      (hmeans : Means g target v) : Means g (.alias number) v
  | scalar {tag : Option Tag} {text : String} {plain : Bool} {v : Value}
      (hscalar : ofScalar tag text plain = .ok v) : Means g (.scalar tag text plain) (underTag tag v)
  | sequence {tag : Option Tag} {items : List Node} {values : List Value}
      (hitems : List.Forall₂ (Means g) items values) :
    Means g (.sequence tag items) (underTag tag (.sequence values))
  | mapping {tag : Option Tag} {pairs : List (Node × Node)} {entries : List (Value × Value)}
      (hkeys : List.Forall₂ (Means g) (pairs.map (·.1)) (entries.map (·.1)))
      (hvalues : List.Forall₂ (Means g) (pairs.map (·.2)) (entries.map (·.2))) :
    Means g (.mapping tag pairs) (underTag tag (.mapping entries))

namespace Value

variable {g : NodeGraph} {n n' : Nat} {v : Value}

theorem means_of_target {node target : Node}
    (hleads : target = node ∨ ∃ number, node = .alias number ∧ g.anchored.lookup number = some target)
    (hmeans : g.Means target v) : g.Means node v := by
  rcases hleads with rfl | ⟨number, rfl, hfound⟩
  · exact hmeans
  · exact .alias hfound hmeans

theorem means_ofNode_scalar {depth : Nat} {tag : Option Tag} {text : String} {plain : Bool}
    (h : ofNode g depth (.scalar tag text plain) n = .ok (v, n')) : g.Means (.scalar tag text plain) v := by
  rw [ofNode_scalar] at h
  obtain ⟨w, m, hw, h⟩ := exists_of_bind h
  obtain rfl := pure_apply_inj h
  exact .scalar (eq_ok_of_lift hw)

/-- A node is read as what it stands for, however many collections may be inside it. -/
theorem means_ofNode {depth : Nat} {node : Node} (h : ofNode g depth node n = .ok (v, n')) :
    g.Means node v := by
  induction depth generalizing node n v n' with
  | zero =>
    obtain ⟨target, m, hleads, hne, h⟩ := exists_target h
    refine means_of_target hleads ?_
    cases target with
    | «alias» number => exact absurd rfl (hne number)
    | scalar tag text plain => exact means_ofNode_scalar h
    | sequence tag items =>
      rw [ofNode_tooDeep (.inl ⟨tag, items, rfl⟩)] at h
      cases h
    | mapping tag pairs =>
      rw [ofNode_tooDeep (.inr ⟨tag, pairs, rfl⟩)] at h
      cases h
  | succ depth ih =>
    -- the nodes inside are read with less depth, whatever has been counted before
    have hread : ∀ node v, ReadAs (ofNode g depth) node v → g.Means node v := by
      rintro node v ⟨n, n', hnode⟩
      exact ih hnode
    obtain ⟨target, m, hleads, hne, h⟩ := exists_target h
    refine means_of_target hleads ?_
    cases target with
    | «alias» number => exact absurd rfl (hne number)
    | scalar tag text plain => exact means_ofNode_scalar h
    | sequence tag items =>
      rw [ofNode_sequence] at h
      obtain ⟨values, m', hvalues, h⟩ := exists_of_bind h
      obtain rfl := pure_apply_inj h
      exact .sequence ((readAs_of_mapM hvalues).imp hread)
    | mapping tag pairs =>
      rw [ofNode_mapping] at h
      obtain ⟨entries, m', hentries, h⟩ := exists_of_bind h
      obtain rfl := pure_apply_inj h
      obtain ⟨-, _, rfl, hall⟩ := readAs_of_foldlM .nil hentries
      refine .mapping ?_ ?_ <;> rw [List.forall₂_map_left_iff, List.forall₂_map_right_iff]
      · exact hall.imp fun pair entry hpair => hread _ _ hpair.1
      · exact hall.imp fun pair entry hpair => hread _ _ hpair.2

/-- The value of a document is what its outermost node stands for. -/
theorem means_ofGraph (h : ofGraph g = .ok v) : g.Means g.root v := by
  obtain ⟨_, _, hroot⟩ := readAs_of_ofGraph h
  exact means_ofNode hroot

end Value

end PartialResponse.Yaml
