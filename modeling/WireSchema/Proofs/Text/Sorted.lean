import Mathlib.Data.List.Basic
import Mathlib.Data.List.Perm.Basic
import Mathlib.Data.String.Basic
import WireSchema.Text.Sorted

/-! # Lists in the order of names: laws

`insertNamed` and `putNamed` keep the order. In a list in order, the item with a name is found
(`findNamed?_eq_some_iff`), and `putNamed` puts the new item in the place of just that one
(`putNamed_perm`). -/

namespace WireSchema

variable {α : Type} {name : α → String} {x y : α} {xs ys : List α}

/-- The items are in the order of their names, and no name occurs twice. -/
def SortedBy (name : α → String) (xs : List α) : Prop := xs.Pairwise fun x y => name x < name y

theorem insertNamed_perm (h : insertNamed name x xs = some ys) : ys.Perm (x :: xs) := by
  induction xs generalizing ys with
  | nil =>
    rw [insertNamed, Option.some.injEq] at h
    rw [← h]
  | cons z zs ih =>
    rw [insertNamed] at h
    split_ifs at h with hlt heq
    · rw [Option.some.injEq] at h
      rw [← h]
    · obtain ⟨ws, hws, rfl⟩ := Option.map_eq_some_iff.mp h
      exact ((ih hws).cons z).trans (List.Perm.swap x z zs)

theorem exists_insertNamed (h : ∀ y ∈ xs, name y ≠ name x) :
    ∃ ys, insertNamed name x xs = some ys := by
  induction xs with
  | nil => exact ⟨[x], rfl⟩
  | cons y xs ih =>
    obtain ⟨hy, hxs⟩ := List.forall_mem_cons.mp h
    obtain ⟨ys, hys⟩ := ih hxs
    unfold insertNamed
    split_ifs with hlt heq
    · exact ⟨_, rfl⟩
    · exact absurd (beq_iff_eq.mp heq).symm hy
    · exact ⟨y :: ys, by rw [hys]; rfl⟩

theorem sortedBy_insertNamed (hs : SortedBy name xs) (h : insertNamed name x xs = some ys) :
    SortedBy name ys := by
  induction xs generalizing ys with
  | nil =>
    rw [insertNamed, Option.some.injEq] at h
    rw [← h]
    exact List.pairwise_singleton _ _
  | cons z zs ih =>
    obtain ⟨hz, hzs⟩ := List.pairwise_cons.mp hs
    rw [insertNamed] at h
    split_ifs at h with hlt heq
    · rw [Option.some.injEq] at h
      rw [← h]
      refine List.pairwise_cons.mpr ⟨fun w hw => ?_, hs⟩
      rcases List.mem_cons.mp hw with rfl | hw
      · exact hlt
      · exact lt_trans hlt (hz w hw)
    · obtain ⟨ws, hws, rfl⟩ := Option.map_eq_some_iff.mp h
      refine List.pairwise_cons.mpr ⟨fun w hw => ?_, ih hzs hws⟩
      rcases (mem_of_insertNamed hws w).mp hw with rfl | hw
      · have hne : name w ≠ name z := fun e => heq (beq_iff_eq.mpr e)
        exact lt_of_le_of_ne (not_lt.mp hlt) (Ne.symm hne)
      · exact hz w hw

/-- A change of the items that keeps their names. -/
theorem insertNamed_map {β : Type} (name' : β → String) (g : α → β)
    (hname : ∀ x, name' (g x) = name x) (x : α) (xs : List α) :
    insertNamed name' (g x) (xs.map g) = (insertNamed name x xs).map (List.map g) := by
  induction xs with
  | nil => rfl
  | cons y ys ih =>
    rw [List.map_cons, insertNamed, insertNamed, hname, hname, ih]
    split_ifs
    · rfl
    · rfl
    · rw [Option.map_map, Option.map_map]
      rfl

/-- A name that is taken is refused. -/
theorem insertNamed_eq_none_iff (hs : SortedBy name xs) :
    insertNamed name x xs = none ↔ ∃ y ∈ xs, name y = name x := by
  constructor
  · intro h
    by_contra hfree
    obtain ⟨ys, hys⟩ := exists_insertNamed fun y hy heq => hfree ⟨y, hy, heq⟩
    rw [h] at hys
    cases hys
  · rintro ⟨y, hy, hname⟩
    rw [Option.eq_none_iff_forall_not_mem]
    intro ys hys
    -- in a list in order with both items, these would have different names
    have hpair : (x :: xs).Pairwise fun x y => name x ≠ name y :=
      ((sortedBy_insertNamed hs hys).imp fun h => ne_of_lt h).perm (insertNamed_perm hys)
        fun h => h.symm
    exact (List.pairwise_cons.mp hpair).1 y hy hname.symm

theorem mem_of_mem_putNamed {z : α} (h : z ∈ putNamed name x xs) : z = x ∨ z ∈ xs := by
  induction xs with
  | nil => exact Or.inl (List.mem_singleton.mp h)
  | cons w ws ih =>
    rw [putNamed] at h
    split_ifs at h with hlt heq
    · exact List.mem_cons.mp h
    · rcases List.mem_cons.mp h with h | h
      · exact Or.inl h
      · exact Or.inr (List.mem_cons_of_mem _ h)
    · rcases List.mem_cons.mp h with rfl | h
      · exact Or.inr List.mem_cons_self
      · rcases ih h with h | h
        · exact Or.inl h
        · exact Or.inr (List.mem_cons_of_mem _ h)

theorem sortedBy_putNamed (hs : SortedBy name xs) : SortedBy name (putNamed name x xs) := by
  induction xs with
  | nil => exact List.pairwise_singleton _ _
  | cons z zs ih =>
    obtain ⟨hz, hzs⟩ := List.pairwise_cons.mp hs
    rw [putNamed]
    split_ifs with hlt heq
    · refine List.pairwise_cons.mpr ⟨fun w hw => ?_, hs⟩
      rcases List.mem_cons.mp hw with rfl | hw
      · exact hlt
      · exact lt_trans hlt (hz w hw)
    · refine List.pairwise_cons.mpr ⟨fun w hw => ?_, hzs⟩
      rw [beq_iff_eq.mp heq]
      exact hz w hw
    · refine List.pairwise_cons.mpr ⟨fun w hw => ?_, ih hzs⟩
      rcases mem_of_mem_putNamed hw with rfl | hw
      · have hne : name w ≠ name z := fun e => heq (beq_iff_eq.mpr e)
        exact lt_of_le_of_ne (not_lt.mp hlt) (Ne.symm hne)
      · exact hz w hw

theorem findNamed?_cons_self (xs : List α) : findNamed? name (name x) (x :: xs) = some x := by
  simp [findNamed?]

theorem findNamed?_cons_of_ne {key : String} (h : name x ≠ key) (xs : List α) :
    findNamed? name key (x :: xs) = findNamed? name key xs := by
  simp [findNamed?, h]

theorem findNamed?_eq_some_iff (hs : SortedBy name xs) {key : String} :
    findNamed? name key xs = some x ↔ x ∈ xs ∧ name x = key := by
  constructor
  · intro h
    unfold findNamed? at h
    have hkey := List.find?_some h
    exact ⟨List.mem_of_find?_eq_some h, beq_iff_eq.mp hkey⟩
  · rintro ⟨hx, rfl⟩
    induction xs with
    | nil => simp at hx
    | cons z zs ih =>
      obtain ⟨hz, hzs⟩ := List.pairwise_cons.mp hs
      rcases List.mem_cons.mp hx with rfl | hx
      · exact findNamed?_cons_self zs
      · rw [findNamed?_cons_of_ne (ne_of_lt (hz x hx))]
        exact ih hzs hx

theorem findNamed?_eq_none_iff {key : String} :
    findNamed? name key xs = none ↔ ∀ x ∈ xs, name x ≠ key := by
  simp [findNamed?]

/-- The new item is found under its name, and all others are found as before. -/
theorem findNamed?_putNamed (x : α) (xs : List α) (key : String) :
    findNamed? name key (putNamed name x xs) =
      if name x = key then some x else findNamed? name key xs := by
  induction xs with
  | nil =>
    rw [putNamed]
    split_ifs with hkey
    · rw [← hkey, findNamed?_cons_self]
    · exact findNamed?_cons_of_ne hkey []
  | cons y ys ih =>
    rw [putNamed]
    by_cases hkey : name x = key
    · rw [if_pos hkey] at ih ⊢
      split_ifs with hlt heq
      · rw [← hkey, findNamed?_cons_self]
      · rw [← hkey, findNamed?_cons_self]
      · have hne : name y ≠ key := fun e => heq (beq_iff_eq.mpr (hkey.trans e.symm))
        rw [findNamed?_cons_of_ne hne, ih]
    · rw [if_neg hkey] at ih ⊢
      split_ifs with hlt heq
      · exact findNamed?_cons_of_ne hkey _
      · have hne : name y ≠ key := fun e => hkey ((beq_iff_eq.mp heq).trans e)
        rw [findNamed?_cons_of_ne hkey, findNamed?_cons_of_ne hne]
      · unfold findNamed? at ih ⊢
        rw [List.find?_cons, List.find?_cons, ih]

/-- The new item takes the place of the one of its name, if there is one. -/
theorem putNamed_perm (hs : SortedBy name xs) :
    ∃ rest, xs.Perm ((findNamed? name (name x) xs).toList ++ rest) ∧
      (putNamed name x xs).Perm (x :: rest) := by
  induction xs with
  | nil => exact ⟨[], by simp [findNamed?], by simp [putNamed]⟩
  | cons z zs ih =>
    obtain ⟨hz, hzs⟩ := List.pairwise_cons.mp hs
    rw [putNamed]
    by_cases hlt : name x < name z
    · rw [if_pos hlt]
      have hnone : findNamed? name (name x) (z :: zs) = none := by
        rw [findNamed?_eq_none_iff]
        intro w hw e
        rcases List.mem_cons.mp hw with rfl | hw
        · exact absurd hlt (by rw [e]; exact lt_irrefl _)
        · exact absurd (lt_trans hlt (hz w hw)) (by rw [e]; exact lt_irrefl _)
      exact ⟨z :: zs, by rw [hnone]; simp, List.Perm.refl _⟩
    · rw [if_neg hlt]
      by_cases heq : (name x == name z) = true
      · rw [if_pos heq]
        refine ⟨zs, ?_, List.Perm.refl _⟩
        rw [(findNamed?_eq_some_iff hs).mpr ⟨List.mem_cons_self, (beq_iff_eq.mp heq).symm⟩]
        simp
      · rw [if_neg heq]
        obtain ⟨rest, h1, h2⟩ := ih hzs
        have hne : name z ≠ name x := fun e => heq (beq_iff_eq.mpr e.symm)
        refine ⟨z :: rest, ?_, (h2.cons z).trans (List.Perm.swap x z rest)⟩
        rw [findNamed?_cons_of_ne hne]
        exact (h1.cons z).trans List.perm_middle.symm

/-- What items have in them, after the item of a name is replaced: the new item has come in, and the
old one of its name, if there was one, has gone. -/
theorem flatMap_putNamed_perm {β : Type} (g : α → List β) (hs : SortedBy name xs) :
    ((putNamed name x xs).flatMap g ++ (findNamed? name (name x) xs).toList.flatMap g).Perm
      (g x ++ xs.flatMap g) := by
  obtain ⟨rest, hold, hnew⟩ := putNamed_perm (x := x) hs
  have hold := hold.flatMap_right g
  have hnew := hnew.flatMap_right g
  rw [List.flatMap_append] at hold
  rw [List.flatMap_cons] at hnew
  refine (hnew.append_right _).trans ?_
  rw [List.append_assoc]
  exact (List.perm_append_comm.trans hold.symm).append_left (g x)

end WireSchema
