import WireSchema.Proofs.Field.Arena

/-! # Turns

The fields of an arena are completed one after the other. When it is the turn of a field, the ones
before it are completed, the ones after it are not, and its own place is blank (`get?_atTurn`). What
stands at its place in the end is what its turn made of it (`get?_complete`). -/

namespace WireSchema.Arena

variable {a : Arena} {i j : FieldId} {ids : List FieldId}

/-- The arena that the field at `i` is completed in. -/
def atTurn (a : Arena) (i : FieldId) : Arena := (a.completeFrom (List.range i)).1.set i .blank

theorem completeFrom_append (a : Arena) (ids later : List FieldId) :
    (a.completeFrom (ids ++ later)).1 = ((a.completeFrom ids).1.completeFrom later).1 := by
  induction ids generalizing a with
  | nil => rfl
  | cons id ids ih => exact ih _

theorem get?_completeAt_of_ne {id : FieldId} (h : i ≠ id) (a : Arena) :
    (a.completeAt id).1.get? i = a.get? i := by
  unfold completeAt
  split
  · rfl
  · rw [get?_set, if_neg (Ne.symm h), get?_set, if_neg (Ne.symm h)]

/-- Only the turn of a field changes it. -/
theorem get?_completeFrom_of_notMem (h : i ∉ ids) (a : Arena) :
    (a.completeFrom ids).1.get? i = a.get? i := by
  induction ids generalizing a with
  | nil => rfl
  | cons id ids ih =>
    rw [List.mem_cons, not_or] at h
    exact (ih h.2 _).trans (get?_completeAt_of_ne h.1 a)

theorem size_completeFrom (a : Arena) (ids : List FieldId) :
    (a.completeFrom ids).1.size = a.size := by
  have hnone (i : FieldId) : (a.completeFrom ids).1.size ≤ i ↔ a.size ≤ i := by
    have hmap : ((a.completeFrom ids).1.get? i).map (fun _ => ()) =
        (a.get? i).map fun _ => () :=
      map_get?_completeFrom (fun _ _ => rfl) ids a i
    rw [← get?_eq_none_iff, ← get?_eq_none_iff, ← Option.map_eq_none_iff, hmap,
      Option.map_eq_none_iff]
  exact Nat.le_antisymm ((hnone _).mpr (Nat.le_refl _)) ((hnone _).mp (Nat.le_refl _))

theorem size_atTurn (a : Arena) (i : FieldId) : (a.atTurn i).size = a.size :=
  Array.size_setIfInBounds.trans (a.size_completeFrom _)

/-- All turns are those before `i`, that of `i` and those after it. -/
theorem complete_eq (hi : i < a.size) : ∃ later : List FieldId, (∀ j ∈ later, i < j) ∧
    a.complete.1 = (((a.completeFrom (List.range i)).1.completeAt i).1.completeFrom later).1 := by
  obtain ⟨n, hn⟩ := Nat.exists_eq_add_of_lt hi
  refine ⟨(List.range n).map (i + 1 + ·), fun j hj => ?_, ?_⟩
  · obtain ⟨k, -, rfl⟩ := List.mem_map.mp hj
    exact Nat.lt_of_lt_of_le (Nat.lt_succ_self i) (Nat.le_add_right _ k)
  · rw [complete, hn, Nat.add_right_comm, List.range_add, List.range_succ, completeFrom_append,
      completeFrom_append]
    rfl

/-- **When it is the turn of a field**, its own place is blank, what comes before it is completed,
and what comes after it is not. -/
theorem get?_atTurn (hi : i < a.size) (j : FieldId) :
    (a.atTurn i).get? j =
      if i = j then some .blank else if j < i then a.complete.1.get? j else a.get? j := by
  rw [atTurn, get?_set]
  split_ifs with hij hlt
  · subst hij
    obtain ⟨f, hf⟩ : ∃ f, (a.completeFrom (List.range i)).1.get? i = some f := by
      rw [get?_completeFrom_of_notMem (by simp)]
      exact ⟨_, Array.getElem?_eq_getElem hi⟩
    rw [hf, Option.map_some]
  · obtain ⟨later, hlater, heq⟩ := complete_eq hi
    have hnot : j ∉ later := fun hj => Nat.lt_asymm hlt (hlater j hj)
    rw [heq, get?_completeFrom_of_notMem hnot, get?_completeAt_of_ne (Ne.symm hij)]
  · exact get?_completeFrom_of_notMem (by simpa using hlt) a

/-- **What stands at a place in the end is what its turn made of it.** -/
theorem get?_complete (a : Arena) (i : FieldId) :
    a.complete.1.get? i = (a.get? i).map fun f => (f.complete (a.atTurn i)).1 := by
  cases hf : a.get? i with
  | none =>
    rw [Option.map_none, get?_eq_none_iff, complete, size_completeFrom]
    exact get?_eq_none_iff.mp hf
  | some f =>
    obtain ⟨later, hlater, heq⟩ := complete_eq (lt_size_of_get? hf)
    have hnot : i ∉ later := fun hi => Nat.lt_irrefl i (hlater i hi)
    -- no turn before that of `i` changes it
    have hturn : (a.completeFrom (List.range i)).1.get? i = some f := by
      rw [get?_completeFrom_of_notMem (by simp), hf]
    rw [heq, get?_completeFrom_of_notMem hnot]
    unfold completeAt
    rw [hturn]
    simp only [get?_set, hturn, atTurn, if_true, Option.map_some]

end WireSchema.Arena
