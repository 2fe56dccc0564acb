import WireSchema.Proofs.Text.Sorted

/-! # Looking a name up by halving

The item in the middle of a list in order says in which part of the list a name is, if it is there
at all. Looking the name up in that part only gives what going through the whole list gives
(`halveNamed?_eq_findNamed?`). -/

namespace WireSchema

variable {α : Type} {name : α → String} {key : String} {xs : List α}

/-- The item with the name, looked for in one half of the list after the other. -/
def halveNamed? (name : α → String) (key : String) (xs : List α) : Option α :=
  if h : xs.length ≤ 1 then findNamed? name key xs
  else if key < name xs[xs.length / 2] then
    halveNamed? name key (xs.take (xs.length - xs.length / 2))
  else halveNamed? name key (xs.drop (xs.length / 2))
termination_by xs.length
decreasing_by
  · rw [List.length_take]
    omega
  · rw [List.length_drop]
    omega

theorem findNamed?_append (ys : List α) :
    findNamed? name key (xs ++ ys) = (findNamed? name key xs).or (findNamed? name key ys) :=
  List.find?_append

theorem SortedBy.take (hs : SortedBy name xs) (k : Nat) : SortedBy name (xs.take k) :=
  List.Pairwise.take hs

theorem SortedBy.drop (hs : SortedBy name xs) (k : Nat) : SortedBy name (xs.drop k) :=
  List.Pairwise.drop hs

theorem SortedBy.getElem_le_of_mem_drop (hs : SortedBy name xs) {k : Nat} (hk : k < xs.length)
    {x : α} (hx : x ∈ xs.drop k) : name xs[k] ≤ name x := by
  have hdrop := hs.drop k
  rw [List.drop_eq_getElem_cons hk] at hdrop hx
  rcases List.mem_cons.mp hx with rfl | hx
  · exact le_refl _
  · exact le_of_lt ((List.pairwise_cons.mp hdrop).1 x hx)

theorem SortedBy.lt_getElem_of_mem_take (hs : SortedBy name xs) {k : Nat} (hk : k < xs.length)
    {x : α} (hx : x ∈ xs.take k) : name x < name xs[k] := by
  unfold SortedBy at hs
  rw [← List.take_append_drop k xs, List.pairwise_append] at hs
  refine hs.2.2 x hx _ ?_
  rw [List.drop_eq_getElem_cons hk]
  exact List.mem_cons_self

/-- **In a list in order, halving finds what is there.** -/
theorem halveNamed?_eq_findNamed? (hs : SortedBy name xs) :
    halveNamed? name key xs = findNamed? name key xs := by
  induction xs using halveNamed?.induct name key with
  | case1 xs h => rw [halveNamed?, dif_pos h]
  | case2 xs h hlt ih =>
    rw [halveNamed?, dif_neg h, if_pos hlt, ih (hs.take _)]
    have hrest : findNamed? name key (xs.drop (xs.length - xs.length / 2)) = none := by
      refine findNamed?_eq_none_iff.mpr fun x hx => ?_
      have hx' := List.drop_subset_drop_left xs (by omega : xs.length / 2 ≤ _) hx
      exact (ne_of_lt (lt_of_lt_of_le hlt (hs.getElem_le_of_mem_drop (by omega) hx'))).symm
    conv_rhs => rw [← List.take_append_drop (xs.length - xs.length / 2) xs]
    rw [findNamed?_append, hrest, Option.or_none]
  | case3 xs h hnot ih =>
    rw [halveNamed?, dif_neg h, if_neg hnot, ih (hs.drop _)]
    have hrest : findNamed? name key (xs.take (xs.length / 2)) = none := by
      refine findNamed?_eq_none_iff.mpr fun x hx => ?_
      exact ne_of_lt (lt_of_lt_of_le (hs.lt_getElem_of_mem_take (by omega) hx) (not_lt.mp hnot))
    conv_rhs => rw [← List.take_append_drop (xs.length / 2) xs]
    rw [findNamed?_append, hrest, Option.none_or]

end WireSchema
