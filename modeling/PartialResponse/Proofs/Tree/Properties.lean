import Mathlib.Data.Finset.Card
import PartialResponse.Proofs.Tree.Contents

/-!
# PartialResponse.Proofs.Tree.Properties — properties set one after the other

What a reader meets of an object are its properties in order, and it sets them in
this order. A name that is met again keeps its first place and gets the new value.
So the names are those that are met, each where it is met first (`names_setAll`),
and their values are those that are met last (`get?_setAll`).
-/

namespace PartialResponse

namespace Properties

variable {α : Type} {done parts : Properties α}

/-- Properties set one after the other. -/
def setAll (done parts : Properties α) : Properties α :=
  parts.foldl (fun done part => done.set part.1 part.2) done

/-- The last property is set last. -/
@[simp]
theorem setAll_concat (done parts : Properties α) (part : String × α) :
    setAll done (parts ++ [part]) = (setAll done parts).set part.1 part.2 := by
  simp only [setAll, List.foldl_append, List.foldl_cons, List.foldl_nil]

/-- What is known of a list in front is kept when repetitions are dropped. -/
theorem eraseDups_prefix {xs ys : List String} (h : xs <+: ys) : xs.eraseDups <+: ys.eraseDups := by
  obtain ⟨more, rfl⟩ := h
  rw [List.eraseDups_append]
  exact List.prefix_append _ _

/-- Names stand where they are set first. -/
@[simp]
theorem names_setAll (parts : Properties α) : names (setAll [] parts) = (names parts).eraseDups := by
  -- from the back, since the last property set decides
  induction parts using List.reverseRecOn with
  | nil => rfl
  | append_singleton parts part ih =>
    have happend : names (parts ++ [part]) = names parts ++ [part.1] := by simp [names]
    by_cases hmem : part.1 ∈ names parts
    · simp [ih, happend, List.eraseDups_append, List.removeAll, hmem]
    · simp [ih, happend, List.eraseDups_append, List.removeAll, hmem, List.eraseDups_cons]

/-- Values are those that are set last. -/
@[simp]
theorem get?_setAll (parts : Properties α) (name : String) :
    get? (setAll [] parts) name = get? parts.reverse name := by
  induction parts using List.reverseRecOn with
  | nil => rfl
  | append_singleton parts part ih =>
    simp [get?, ih, eq_comm]

/-- Nothing is there that has not been set. -/
theorem mem_of_mem_setAll {property : String × α} (h : property ∈ setAll [] parts) : property ∈ parts := by
  induction parts using List.reverseRecOn with
  | nil => exact h
  | append_singleton parts part ih =>
    rw [setAll_concat] at h
    rcases mem_set h with rfl | hmem
    · exact List.mem_append_right _ (List.mem_singleton_self _)
    · exact List.mem_append_left _ (ih hmem)

/-- However often a name is set, it is there once. -/
theorem nodup_names_setAll (parts : Properties α) : (names (setAll [] parts)).Nodup := by
  induction parts using List.reverseRecOn with
  | nil => exact List.nodup_nil
  | append_singleton parts part ih =>
    rw [setAll_concat]
    exact nodup_names_set ih _ _

/-- Nothing is lost just if no name is set twice. -/
theorem length_setAll_eq_iff : (setAll [] parts).length = parts.length ↔ (names parts).Nodup := by
  -- the names of both sides are the same set, and on the left they differ
  have hlength : ∀ properties : Properties α, properties.length = (names properties).length :=
    fun _ => (List.length_map ..).symm
  have hcard : (names (setAll [] parts)).toFinset = (names parts).toFinset := by
    ext name
    rw [List.mem_toFinset, List.mem_toFinset, names_setAll, List.mem_eraseDups]
  rw [hlength, hlength, ← List.toFinset_card_of_nodup (nodup_names_setAll parts), hcard]
  exact Multiset.toFinset_card_eq_card_iff_nodup

/-- Properties of different names stay as they are. -/
theorem setAll_eq_self (h : (names parts).Nodup) : setAll [] parts = parts := by
  induction parts using List.reverseRecOn with
  | nil => rfl
  | append_singleton parts part ih =>
    have hnew : part.1 ∉ names parts := fresh_of_nodup h
    rw [names, List.map_append] at h
    rw [setAll_concat, ih h.of_append_left, set_fresh hnew]

end Properties

end PartialResponse
