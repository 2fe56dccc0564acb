import WireSchema.Proofs.Field.Nesting

/-! # Places of an arena

What stands at a place after a field is added, replaced or completed. What completing a field does
not change, completing the arena does not change at any place (`map_get?_complete`). -/

namespace WireSchema.Arena

theorem get?_eq_none_iff {a : Arena} {i : FieldId} : a.get? i = none ↔ a.size ≤ i :=
  Array.getElem?_eq_none_iff

theorem lt_size_of_get? {a : Arena} {i : FieldId} {f : Field} (h : a.get? i = some f) :
    i < a.size := by
  by_contra hge
  rw [get?_eq_none_iff.mpr (Nat.not_lt.mp hge)] at h
  simp at h

theorem get?_set (a : Arena) (i j : FieldId) (f : Field) :
    (a.set i f).get? j = if i = j then (a.get? j).map fun _ => f else a.get? j := by
  unfold set get?
  rw [Array.getElem?_setIfInBounds]
  by_cases h : i = j
  · rw [if_pos h, if_pos h]
    subst h
    split_ifs with hi
    · rw [Array.getElem?_eq_getElem hi, Option.map_some]
    · rw [Array.getElem?_eq_none_iff.mpr (by omega), Option.map_none]
  · rw [if_neg h, if_neg h]

theorem get?_push (a : Arena) (f : Field) (i : FieldId) :
    (a.push f).get? i = if i = a.size then some f else a.get? i :=
  Array.getElem?_push

theorem size_push (a : Arena) (f : Field) : (a.push f).size = a.size + 1 := Array.size_push f

/-- The references of the field at a place. -/
def refsAt (a : Arena) (i : FieldId) : List FieldRef := ((a.get? i).map Field.refs).getD []

theorem refsAt_set (a : Arena) (k i : FieldId) {f g : Field} (h : a.get? k = some g) :
    (a.set k f).refsAt i = if k = i then f.refs else a.refsAt i := by
  unfold refsAt
  rw [get?_set]
  by_cases hi : k = i
  · subst hi
    simp [h]
  · simp [hi]

theorem flatMap_fields_congr {α : Type} {look : Field → List α} {a b : Arena}
    (h : ∀ i, (a.get? i).map look = (b.get? i).map look) :
    a.fields.toList.flatMap look = b.fields.toList.flatMap look := by
  have hmap : a.fields.toList.map look = b.fields.toList.map look := by
    refine List.ext_getElem? fun i => ?_
    rw [List.getElem?_map, List.getElem?_map, Array.getElem?_toList, Array.getElem?_toList]
    exact h i
  rw [List.flatMap_def, List.flatMap_def, hmap]

theorem mem_flatMap_fields {α : Type} {look : Field → List α} {a : Arena} {x : α} :
    x ∈ a.fields.toList.flatMap look ↔ ∃ i f, a.get? i = some f ∧ x ∈ look f := by
  rw [List.mem_flatMap]
  constructor
  · rintro ⟨f, hf, hx⟩
    obtain ⟨i, hi⟩ := List.mem_iff_getElem?.mp hf
    rw [Array.getElem?_toList] at hi
    exact ⟨i, f, hi, hx⟩
  · rintro ⟨i, f, hi, hx⟩
    refine ⟨f, List.mem_iff_getElem?.mpr ⟨i, ?_⟩, hx⟩
    rw [Array.getElem?_toList]
    exact hi

/-! ### Completing the arena -/

/-- What completing a field does not change, completing the arena does not change anywhere. -/
theorem map_get?_completeFrom {α : Type} {look : Field → α}
    (h : ∀ b f, look (f.complete b).1 = look f) (ids : List FieldId) (a : Arena) (i : FieldId) :
    ((a.completeFrom ids).1.get? i).map look = (a.get? i).map look := by
  induction ids generalizing a with
  | nil => rfl
  | cons id ids ih =>
    rw [completeFrom, ih]
    unfold completeAt
    cases hid : a.get? id with
    | none => rfl
    | some f =>
      simp only [get?_set]
      by_cases hi : id = i
      · subst hi
        simp [hid, h]
      · simp [hi]

theorem map_get?_complete {α : Type} {look : Field → α}
    (h : ∀ b f, look (f.complete b).1 = look f) (a : Arena) (i : FieldId) :
    (a.complete.1.get? i).map look = (a.get? i).map look :=
  map_get?_completeFrom h _ _ _

theorem refsAt_complete (a : Arena) (i : FieldId) : a.complete.1.refsAt i = a.refsAt i := by
  unfold refsAt
  rw [map_get?_complete fun b f => Field.refs_complete b f]

end WireSchema.Arena
