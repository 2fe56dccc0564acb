import Mathlib.Logic.Relation
import Mathlib.Order.WellFounded
import WireSchema.Schema.Cycle

/-! # The search in depth

Every edge that the search finds lies on a cycle (`onCycle_of_mem_search`), and the edges that it
does not find have no infinite path, hence no cycle (`wellFounded_kept`).

The search is followed with the list of the fields that are *done*, the last one first: an edge of
such a field is found, or it leads to a field that was done before (`Finished`). A field is done
when it leaves the stack; until then its edges are pending, settled in the same way, or lead to the
field above it (`Explored`). -/

namespace WireSchema.Arena

open Relation

variable {edges : FieldId → List FieldId} {fresh done : List FieldId} {stack : List Searched}
  {found : List (FieldId × FieldId)}

/-! ### The invariant -/

/-- There is an edge from `u` to `v`. -/
def Leads (edges : FieldId → List FieldId) (u v : FieldId) : Prop := v ∈ edges u

/-- There is an edge from `u` to `v`, and a path back. -/
def OnCycle (edges : FieldId → List FieldId) (u v : FieldId) : Prop :=
  Leads edges u v ∧ ReflTransGen (Leads edges) v u

/-- An edge that is left when the ones in `found` are cut. -/
def Kept (edges : FieldId → List FieldId) (found : List (FieldId × FieldId)) (u v : FieldId) :
    Prop :=
  Leads edges u v ∧ (u, v) ∉ found

/-- The edge from `u` to `v` is found, or nothing is left to be done for `v`. -/
def Settled (edges : FieldId → List FieldId) (found : List (FieldId × FieldId))
    (done : List FieldId) (u v : FieldId) : Prop :=
  (u, v) ∈ found ∨ v ∈ done ∨ edges v = []

/-- The edges of every field are settled by the fields after it. -/
def Finished (edges : FieldId → List FieldId) (found : List (FieldId × FieldId)) :
    List FieldId → Prop
  | [] => True
  | u :: done => (∀ v ∈ edges u, Settled edges found done u v) ∧ Finished edges found done

/-- Pending edges are edges, and every field on the stack is reached by one from the next. -/
def Chained (edges : FieldId → List FieldId) : List Searched → Prop
  | [] => True
  | s :: below =>
    (∀ v ∈ s.pending, v ∈ edges s.node) ∧ (∀ t ∈ below.head?, Leads edges t.node s.node) ∧
      Chained edges below

/-- Every edge of a field on the stack is pending or settled, or leads to the field above. -/
def Explored (edges : FieldId → List FieldId) (found : List (FieldId × FieldId))
    (done : List FieldId) : Option FieldId → List Searched → Prop
  | _, [] => True
  | above, s :: below =>
    (∀ v ∈ edges s.node, v ∈ s.pending ∨ Settled edges found done s.node v ∨ above = some v) ∧
      Explored edges found done (some s.node) below

/-- What holds at every step of the search. -/
structure Searching (edges : FieldId → List FieldId) (fresh : List FieldId)
    (stack : List Searched) (found : List (FieldId × FieldId)) (done : List FieldId) : Prop where
  covered : ∀ u, u ∈ fresh ∨ (∃ s ∈ stack, s.node = u) ∨ u ∈ done ∨ edges u = []
  chained : Chained edges stack
  explored : Explored edges found done none stack
  finished : Finished edges found done
  onCycle : ∀ p ∈ found, OnCycle edges p.1 p.2

/-! ### More found, more done -/

theorem Settled.mono {found' : List (FieldId × FieldId)} {done' : List FieldId} {u v : FieldId}
    (hf : found ⊆ found') (hd : done ⊆ done') (h : Settled edges found done u v) :
    Settled edges found' done' u v := by
  rcases h with h | h | h
  · exact Or.inl (hf h)
  · exact Or.inr (Or.inl (hd h))
  · exact Or.inr (Or.inr h)

theorem Finished.mono {found' : List (FieldId × FieldId)} (hf : found ⊆ found') :
    ∀ {done : List FieldId}, Finished edges found done → Finished edges found' done
  | [], _ => trivial
  | _ :: _, ⟨h, hd⟩ => ⟨fun v hv => (h v hv).mono hf (List.Subset.refl _), hd.mono hf⟩

theorem Explored.mono {found' : List (FieldId × FieldId)} {done' : List FieldId}
    (hf : found ⊆ found') (hd : done ⊆ done') :
    ∀ {above : Option FieldId} {stack : List Searched},
      Explored edges found done above stack → Explored edges found' done' above stack
  | _, [], _ => trivial
  | above, s :: below, ⟨h, hb⟩ => by
    refine ⟨fun v hv => ?_, hb.mono hf hd⟩
    rcases h v hv with h | h | h
    · exact Or.inl h
    · exact Or.inr (Or.inl (h.mono hf hd))
    · exact Or.inr (Or.inr h)

/-- Every field on the stack leads to the one on top. -/
theorem Chained.path_to_top : ∀ {s : Searched} {below : List Searched},
    Chained edges (s :: below) → ∀ t ∈ s :: below, ReflTransGen (Leads edges) t.node s.node
  | s, [], _, t, ht => by
    rw [List.mem_singleton] at ht
    rw [ht]
  | s, s' :: below, ⟨_, hs, hb⟩, t, ht => by
    rcases List.mem_cons.mp ht with rfl | ht
    · exact ReflTransGen.refl
    · exact (hb.path_to_top t ht).tail (hs s' rfl)

/-! ### The steps -/

/-- A field is searched on its own. -/
theorem Searching.start {u : FieldId} (h : Searching edges (u :: fresh) [] found done) :
    Searching edges fresh [⟨u, edges u⟩] found done where
  covered v := by
    rcases h.covered v with hv | ⟨s, hs, -⟩ | hv
    · rcases List.mem_cons.mp hv with rfl | hv
      · exact Or.inr (Or.inl ⟨_, List.mem_singleton_self _, rfl⟩)
      · exact Or.inl hv
    · simp at hs
    · exact Or.inr (Or.inr hv)
  chained := ⟨fun _ hv => hv, by simp, trivial⟩
  explored := ⟨fun _ hv => Or.inl hv, trivial⟩
  finished := h.finished
  onCycle := h.onCycle

/-- A field without pending edges is done. -/
theorem Searching.pop {u : FieldId} {below : List Searched}
    (h : Searching edges fresh (⟨u, []⟩ :: below) found done) :
    Searching edges fresh below found (u :: done) where
  covered v := by
    rcases h.covered v with hv | ⟨s, hs, rfl⟩ | hv | hv
    · exact Or.inl hv
    · rcases List.mem_cons.mp hs with rfl | hs
      · exact Or.inr (Or.inr (Or.inl (by simp)))
      · exact Or.inr (Or.inl ⟨s, hs, rfl⟩)
    · exact Or.inr (Or.inr (Or.inl (List.mem_cons_of_mem _ hv)))
    · exact Or.inr (Or.inr (Or.inr hv))
  chained := h.chained.2.2
  explored := by
    -- the edge from the new top to `u` is settled now that `u` is done
    have hb := h.explored.2
    cases below with
    | nil => trivial
    | cons s below =>
      refine ⟨fun v hv => ?_, hb.2.mono (List.Subset.refl _) (List.subset_cons_self _ _)⟩
      rcases hb.1 v hv with hv | hv | hv
      · exact Or.inl hv
      · exact Or.inr (Or.inl (hv.mono (List.Subset.refl _) (List.subset_cons_self _ _)))
      · rw [Option.some.injEq] at hv
        subst hv
        exact Or.inr (Or.inl (Or.inr (Or.inl (by simp))))
  finished := by
    refine ⟨fun v hv => ?_, h.finished⟩
    rcases h.explored.1 v hv with hv | hv | hv
    · simp at hv
    · exact hv
    · simp at hv
  onCycle := h.onCycle

/-- An edge to a fresh field is followed. -/
theorem Searching.push {u v : FieldId} {pending : List FieldId} {below : List Searched}
    (h : Searching edges fresh (⟨u, v :: pending⟩ :: below) found done) :
    Searching edges (fresh.erase v) (⟨v, edges v⟩ :: ⟨u, pending⟩ :: below) found done where
  covered w := by
    rcases h.covered w with hw | ⟨s, hs, rfl⟩ | hw
    · rcases eq_or_ne w v with rfl | hne
      · exact Or.inr (Or.inl ⟨_, List.mem_cons_self, rfl⟩)
      · exact Or.inl ((List.mem_erase_of_ne hne).mpr hw)
    · rcases List.mem_cons.mp hs with rfl | hs
      · exact Or.inr (Or.inl ⟨_, List.mem_cons_of_mem _ List.mem_cons_self, rfl⟩)
      · exact Or.inr (Or.inl ⟨s, List.mem_cons_of_mem _ (List.mem_cons_of_mem _ hs), rfl⟩)
    · exact Or.inr (Or.inr hw)
  chained := by
    obtain ⟨hp, hs, hb⟩ := h.chained
    refine ⟨fun _ hw => hw, ?_, fun w hw => hp w (List.mem_cons_of_mem _ hw), hs, hb⟩
    rintro t ⟨⟩
    exact hp v List.mem_cons_self
  explored := by
    refine ⟨fun _ hw => Or.inl hw, fun w hw => ?_, h.explored.2⟩
    rcases h.explored.1 w hw with hw | hw | hw
    · rcases List.mem_cons.mp hw with rfl | hw
      · exact Or.inr (Or.inr rfl)
      · exact Or.inl hw
    · exact Or.inr (Or.inl hw)
    · simp at hw
  finished := h.finished
  onCycle := h.onCycle

/-- An edge that is settled is no longer pending. -/
theorem Searching.skip {u v : FieldId} {pending : List FieldId} {below : List Searched}
    (h : Searching edges fresh (⟨u, v :: pending⟩ :: below) found done)
    (hv : Settled edges found done u v) :
    Searching edges fresh (⟨u, pending⟩ :: below) found done where
  covered w := by
    rcases h.covered w with hw | ⟨s, hs, rfl⟩ | hw
    · exact Or.inl hw
    · rcases List.mem_cons.mp hs with rfl | hs
      · exact Or.inr (Or.inl ⟨_, List.mem_cons_self, rfl⟩)
      · exact Or.inr (Or.inl ⟨s, List.mem_cons_of_mem _ hs, rfl⟩)
    · exact Or.inr (Or.inr hw)
  chained := by
    obtain ⟨hp, hs, hb⟩ := h.chained
    exact ⟨fun w hw => hp w (List.mem_cons_of_mem _ hw), hs, hb⟩
  explored := by
    refine ⟨fun w hw => ?_, h.explored.2⟩
    rcases h.explored.1 w hw with hw | hw | hw
    · rcases List.mem_cons.mp hw with rfl | hw
      · exact Or.inr (Or.inl hv)
      · exact Or.inl hw
    · exact Or.inr (Or.inl hw)
    · simp at hw
  finished := h.finished
  onCycle := h.onCycle

/-- An edge to a field on the stack closes a cycle. -/
theorem Searching.back {u v : FieldId} {pending : List FieldId} {below : List Searched}
    (h : Searching edges fresh (⟨u, v :: pending⟩ :: below) found done)
    (hv : ∃ s ∈ (⟨u, pending⟩ :: below : List Searched), s.node = v) :
    Searching edges fresh (⟨u, pending⟩ :: below) (found ++ [(u, v)]) done := by
  have hfound : found ⊆ found ++ [(u, v)] := List.subset_append_left _ _
  have hedge : Leads edges u v := h.chained.1 v List.mem_cons_self
  have hpath : ReflTransGen (Leads edges) v u := by
    obtain ⟨s, hs, rfl⟩ := hv
    rcases List.mem_cons.mp hs with rfl | hs
    · exact ReflTransGen.refl
    · exact h.chained.path_to_top s (List.mem_cons_of_mem _ hs)
  have h' : Searching edges fresh (⟨u, v :: pending⟩ :: below) (found ++ [(u, v)]) done := by
    refine ⟨h.covered, h.chained, h.explored.mono hfound (List.Subset.refl _),
      h.finished.mono hfound, fun p hp => ?_⟩
    rcases List.mem_append.mp hp with hp | hp
    · exact h.onCycle p hp
    · rw [List.mem_singleton] at hp
      subst hp
      exact ⟨hedge, hpath⟩
  exact h'.skip (Or.inl (by simp))

/-! ### The run -/

/-- The search ends with all fields done. -/
theorem Searching.search (h : Searching edges fresh stack found done) :
    ∃ done', Searching edges [] [] (search edges fresh stack found) done' := by
  revert done
  induction fresh, stack, found using search.induct edges with
  | case1 found =>
    intro done h
    rw [Arena.search]
    exact ⟨done, h⟩
  | case2 found start fresh ih =>
    intro done h
    rw [Arena.search]
    exact ih h.start
  | case3 fresh found node below ih =>
    intro done h
    rw [Arena.search]
    exact ih h.pop
  | case4 fresh found node target pending below rest hmem =>
    rename_i ih
    intro done h
    rw [Arena.search, if_pos hmem]
    exact ih h.push
  | case5 fresh found node target pending below rest hmem hany =>
    rename_i ih
    intro done h
    rw [Arena.search, if_neg hmem, if_pos hany]
    rw [List.any_eq_true] at hany
    obtain ⟨s, hs, heq⟩ := hany
    exact ih (h.back ⟨s, hs, beq_iff_eq.mp heq⟩)
  | case6 fresh found node target pending below rest hmem hany =>
    rename_i ih
    intro done h
    rw [Arena.search, if_neg hmem, if_neg hany]
    refine ih (h.skip ?_)
    rcases h.covered target with ht | ⟨s, hs, ht⟩ | ht
    · exact absurd ht hmem
    · refine absurd (List.any_eq_true.mpr ?_) hany
      rcases List.mem_cons.mp hs with rfl | hs
      · exact ⟨_, List.mem_cons_self, beq_iff_eq.mpr ht⟩
      · exact ⟨s, List.mem_cons_of_mem _ hs, beq_iff_eq.mpr ht⟩
    · exact Or.inr ht

/-- A search over all fields that have edges. -/
theorem searching_of_forall_mem (h : ∀ u, u ∈ fresh ∨ edges u = []) :
    Searching edges fresh [] [] [] where
  covered u := by
    rcases h u with h | h
    · exact Or.inl h
    · exact Or.inr (Or.inr (Or.inr h))
  chained := trivial
  explored := trivial
  finished := trivial
  onCycle := by simp

/-- **Only edges on cycles are found.** -/
theorem onCycle_of_mem_search (h : ∀ u, u ∈ fresh ∨ edges u = []) {u v : FieldId}
    (hp : (u, v) ∈ search edges fresh [] []) : OnCycle edges u v := by
  obtain ⟨done, hs⟩ := (searching_of_forall_mem h).search
  exact hs.onCycle (u, v) hp

theorem acc_of_edges_eq_nil {u : FieldId} (h : edges u = []) :
    Acc (fun v u => Kept edges found u v) u := by
  refine Acc.intro u fun v hv => ?_
  have := hv.1
  unfold Leads at this
  rw [h] at this
  simp at this

theorem Finished.acc : ∀ {done : List FieldId}, Finished edges found done →
    ∀ u ∈ done, Acc (fun v u => Kept edges found u v) u
  | [], _, u, hu => by simp at hu
  | w :: done, ⟨hw, hd⟩, u, hu => by
    rcases List.mem_cons.mp hu with rfl | hu
    · refine Acc.intro u fun v hv => ?_
      rcases hw v hv.1 with h | h | h
      · exact absurd h hv.2
      · exact hd.acc v h
      · exact acc_of_edges_eq_nil h
    · exact hd.acc u hu

/-- **The edges that are not found have no infinite path.** -/
theorem wellFounded_kept (h : ∀ u, u ∈ fresh ∨ edges u = []) :
    WellFounded fun v u => Kept edges (search edges fresh [] []) u v := by
  obtain ⟨done, hs⟩ := (searching_of_forall_mem h).search
  refine ⟨fun u => ?_⟩
  rcases hs.covered u with hu | ⟨s, hu, -⟩ | hu | hu
  · simp at hu
  · simp at hu
  · exact hs.finished.acc u hu
  · exact acc_of_edges_eq_nil hu

end WireSchema.Arena
