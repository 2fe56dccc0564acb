import Mathlib.Data.Int.Order.Basic
import Mathlib.Data.List.Nodup
import WireSchema.Proofs.Text.Sorted

/-! # Lists of items with different names

In a list whose items have different names, in any order, the item with a name is found
(`findNamed?_eq_some_iff_of_nodup`). Sorting such a list by the names puts it in strict order
(`pairwise_lt_mergeSort`). -/

namespace WireSchema

variable {α κ : Type} {key : α → κ} {xs : List α}

theorem findNamed?_eq_some_iff_of_nodup {name : α → String} (h : (xs.map name).Nodup) {x : α}
    {n : String} : findNamed? name n xs = some x ↔ x ∈ xs ∧ name x = n := by
  have hfound {y : α} {n : String} (hy : findNamed? name n xs = some y) :
      y ∈ xs ∧ name y = n := by
    unfold findNamed? at hy
    have hname := List.find?_some hy
    exact ⟨List.mem_of_find?_eq_some hy, beq_iff_eq.mp hname⟩
  refine ⟨hfound, ?_⟩
  rintro ⟨hx, rfl⟩
  obtain ⟨y, hy⟩ : ∃ y, findNamed? name (name x) xs = some y :=
    Option.isSome_iff_exists.mp (List.find?_isSome.mpr ⟨x, hx, beq_self_eq_true _⟩)
  obtain ⟨hmem, hname⟩ := hfound hy
  rw [hy, List.inj_on_of_nodup_map h hmem hx hname]

/-- **Items with different keys are put in strict order.** -/
theorem pairwise_lt_mergeSort [LinearOrder κ] {le : α → α → Bool}
    (hle : ∀ a b, le a b = true ↔ key a ≤ key b) (h : (xs.map key).Nodup) :
    ((xs.mergeSort le).map key).Pairwise (· < ·) := by
  have hsorted : (xs.mergeSort le).Pairwise fun a b => le a b = true := by
    refine List.pairwise_mergeSort (fun a b c hab hbc => ?_) (fun a b => ?_) xs
    · rw [hle] at hab hbc ⊢
      exact le_trans hab hbc
    · rw [Bool.or_eq_true, hle, hle]
      exact le_total _ _
  have hdistinct : ((xs.mergeSort le).map key).Nodup :=
    ((List.mergeSort_perm xs le).map key).nodup_iff.mpr h
  rw [List.pairwise_map]
  have hne : (xs.mergeSort le).Pairwise fun a b => key a ≠ key b := List.pairwise_map.mp hdistinct
  refine (hsorted.and hne).imp fun {a b} hab => ?_
  exact lt_of_le_of_ne ((hle a b).mp hab.1) hab.2

theorem nodup_eraseDups [BEq α] [LawfulBEq α] (xs : List α) : xs.eraseDups.Nodup := by
  cases xs with
  | nil => exact List.nodup_nil
  | cons x xs =>
    rw [List.eraseDups_cons, List.nodup_cons, List.mem_eraseDups, List.mem_filter]
    exact ⟨fun h => by simp at h, nodup_eraseDups _⟩
termination_by xs.length
decreasing_by exact Nat.lt_succ_of_le (List.length_filter_le _ _)

theorem eraseDups_of_nodup [BEq α] [LawfulBEq α] (h : xs.Nodup) : xs.eraseDups = xs := by
  induction xs with
  | nil => rfl
  | cons x xs ih =>
    obtain ⟨hx, h⟩ := List.nodup_cons.mp h
    have hfilter : xs.filter (fun y => !y == x) = xs :=
      List.filter_eq_self.mpr fun y hy => by simpa using ne_of_mem_of_not_mem hy hx
    rw [List.eraseDups_cons, hfilter, ih h]

end WireSchema
