import WireSchema.Proofs.Cycle.Search
import WireSchema.Proofs.Field.Arena

/-! # Cutting cycles

The bound references of an arena are a graph on its places (`Arena.Edge`). `Arena.breakCycles`
leaves a graph without a cycle (`acyclic_breakCycles`). It unbinds nothing but references that lie
on a cycle (`refsAt_breakCycles`), and reports a cycle just when there is one
(`exists_reportsCycle_breakCycles`). -/

namespace WireSchema

open Relation

/-- The finding is the error about a cycle of references. -/
def Finding.reportsCycle (f : Finding) : Bool :=
  match f.cause with
  | .error (.referenceCycle _) => true
  | _ => false

theorem Finding.reportsCycle_iff {f : Finding} :
    f.reportsCycle = true ↔ ∃ name, f.cause = .error (.referenceCycle name) := by
  unfold Finding.reportsCycle
  split <;> simp_all

namespace Arena

/-- Some reference that the field at `i` holds, at any depth, is bound to `j`. -/
def Edge (a : Arena) (i j : FieldId) : Prop :=
  ∃ f r, a.get? i = some f ∧ f.Holds r ∧ r.target = some j

/-- No path of bound references comes back to where it began. -/
def Acyclic (a : Arena) : Prop := ∀ i, ¬ TransGen a.Edge i i

/-! ### The graph of an arena -/

theorem edges_eq_filterMap (a : Arena) (i : FieldId) :
    a.edges i = (a.refsAt i).filterMap (·.target) := by
  unfold edges refsAt
  cases a.get? i <;> rfl

theorem edges_eq_nil {a : Arena} {i : FieldId} (h : a.get? i = none) : a.edges i = [] := by
  unfold edges
  rw [h]

theorem leads_iff_edge {a : Arena} {i j : FieldId} : Leads a.edges i j ↔ a.Edge i j := by
  unfold Leads Edge edges
  cases h : a.get? i with
  | none => simp
  | some f => simp [List.mem_filterMap, ← Field.mem_refs_iff_holds]

theorem leads_eq_edge (a : Arena) : Leads a.edges = a.Edge := by
  funext i j
  exact propext leads_iff_edge

theorem mem_range_or_edges_eq_nil (a : Arena) (i : FieldId) :
    i ∈ List.range a.size ∨ a.edges i = [] := by
  rcases Nat.lt_or_ge i a.size with h | h
  · exact Or.inl (List.mem_range.mpr h)
  · exact Or.inr (edges_eq_nil (get?_eq_none_iff.mpr h))

theorem acyclic_of_wellFounded {a : Arena} (h : WellFounded fun j i => a.Edge i j) :
    a.Acyclic := by
  intro i hi
  have hi' : TransGen (fun j i => a.Edge i j) i i := transGen_swap.mpr hi
  exact h.transGen.irrefl.irrefl i hi'

/-! ### The references that are left -/

/-- The reference at `i`, unbound if its edge is among the cut ones. -/
def cutRef (cut : List (FieldId × FieldId)) (i : FieldId) (r : FieldRef) : FieldRef :=
  match r.target with
  | none => r
  | some j => if (i, j) ∈ cut then { r with target := none } else r

theorem cutRef_nil (i : FieldId) : cutRef [] i = id := by
  funext r
  unfold cutRef
  split <;> simp

theorem cutRef_cons_of_ne {i k j : FieldId} (h : k ≠ i) (cut : List (FieldId × FieldId))
    (r : FieldRef) : cutRef ((k, j) :: cut) i r = cutRef cut i r := by
  unfold cutRef
  split
  · rfl
  · simp [Ne.symm h]

theorem cutRef_unbind (i j : FieldId) (cut : List (FieldId × FieldId)) (r : FieldRef) :
    cutRef cut i (unbind j r) = cutRef ((i, j) :: cut) i r := by
  obtain ⟨path, target, line⟩ := r
  cases target with
  | none => simp [unbind, cutRef]
  | some k =>
    by_cases h : k = j
    · simp [unbind, cutRef, h]
    · simp [unbind, cutRef, h]

theorem target_cutRef {cut : List (FieldId × FieldId)} {i j : FieldId} {r : FieldRef} :
    (cutRef cut i r).target = some j ↔ r.target = some j ∧ (i, j) ∉ cut := by
  unfold cutRef
  cases hr : r.target with
  | none => simp [hr]
  | some k =>
    by_cases h : (i, k) ∈ cut
    · simp only [h, if_true, reduceCtorEq, Option.some.injEq, false_iff, not_and, not_not]
      rintro rfl
      exact h
    · simp only [h, if_false, hr, Option.some.injEq, iff_self_and]
      rintro rfl
      exact h

theorem cutRef_eq_or {cut : List (FieldId × FieldId)} {i : FieldId} {r : FieldRef} :
    cutRef cut i r = r ∨
      ∃ j, r.target = some j ∧ (i, j) ∈ cut ∧ cutRef cut i r = { r with target := none } := by
  unfold cutRef
  cases hr : r.target with
  | none => exact Or.inl rfl
  | some k =>
    by_cases h : (i, k) ∈ cut
    · exact Or.inr ⟨k, rfl, h, by simp [h]⟩
    · exact Or.inl (by simp [h])

theorem refsAt_cutEdges (cut : List (FieldId × FieldId)) (a : Arena) (i : FieldId) :
    (a.cutEdges cut).1.refsAt i = (a.refsAt i).map (cutRef cut i) := by
  induction cut generalizing a with
  | nil => simp [cutEdges, cutRef_nil]
  | cons p cut ih =>
    obtain ⟨k, j⟩ := p
    rw [cutEdges]
    cases hk : a.get? k with
    | none =>
      rw [ih]
      by_cases h : k = i
      · subst h
        simp [refsAt, hk]
      · simp [cutRef_cons_of_ne h]
    | some f =>
      simp only [ih, refsAt_set a k i hk, Field.refs_mapRefs]
      by_cases h : k = i
      · subst h
        simp [refsAt, hk, cutRef_unbind]
      · simp [h, cutRef_cons_of_ne h]

/-- What unbinding references does not change, cutting edges does not change anywhere. -/
theorem map_get?_cutEdges {α : Type} {look : Field → α}
    (h : ∀ j f, look (f.mapRefs (unbind j)) = look f) (cut : List (FieldId × FieldId)) (a : Arena)
    (i : FieldId) : ((a.cutEdges cut).1.get? i).map look = (a.get? i).map look := by
  induction cut generalizing a with
  | nil => rfl
  | cons p cut ih =>
    obtain ⟨k, j⟩ := p
    rw [cutEdges]
    cases hk : a.get? k with
    | none => exact ih a
    | some f =>
      simp only [ih, get?_set]
      by_cases hi : k = i
      · subst hi
        simp [hk, h]
      · simp [hi]

theorem leads_cutEdges {a : Arena} {cut : List (FieldId × FieldId)} {i j : FieldId} :
    Leads (a.cutEdges cut).1.edges i j ↔ Kept a.edges cut i j := by
  unfold Kept Leads
  simp only [edges_eq_filterMap, refsAt_cutEdges, List.mem_filterMap, List.mem_map]
  constructor
  · rintro ⟨_, ⟨r, hr, rfl⟩, ht⟩
    obtain ⟨ht, hcut⟩ := target_cutRef.mp ht
    exact ⟨⟨r, hr, ht⟩, hcut⟩
  · rintro ⟨⟨r, hr, ht⟩, hcut⟩
    exact ⟨_, ⟨r, hr, rfl⟩, target_cutRef.mpr ⟨ht, hcut⟩⟩

/-! ### The errors -/

theorem reportsCycle_of_mem_cutEdges {cut : List (FieldId × FieldId)} {a : Arena} {f : Finding}
    (h : f ∈ (a.cutEdges cut).2) : f.reportsCycle := by
  induction cut generalizing a with
  | nil => simp [cutEdges] at h
  | cons p cut ih =>
    obtain ⟨k, j⟩ := p
    rw [cutEdges] at h
    cases hk : a.get? k with
    | none =>
      rw [hk] at h
      exact ih h
    | some g =>
      rw [hk] at h
      rcases List.mem_cons.mp h with rfl | h
      · rfl
      · exact ih h

theorem exists_mem_cutEdges {cut : List (FieldId × FieldId)} {a : Arena} {i j : FieldId}
    (h : (i, j) ∈ cut) (hi : a.get? i ≠ none) : ∃ f, f ∈ (a.cutEdges cut).2 := by
  induction cut generalizing a with
  | nil => simp at h
  | cons p cut ih =>
    obtain ⟨k, l⟩ := p
    rw [cutEdges]
    cases hk : a.get? k with
    | some g => exact ⟨_, List.mem_cons_self⟩
    | none =>
      rcases List.mem_cons.mp h with h | h
      · rw [Prod.mk.injEq] at h
        rw [h.1] at hi
        exact absurd hk hi
      · exact ih h hi

/-! ### Breaking cycles -/

theorem onCycle_of_mem_backEdges {a : Arena} {i j : FieldId} (h : (i, j) ∈ a.backEdges) :
    a.Edge i j ∧ ReflTransGen a.Edge j i := by
  have := onCycle_of_mem_search (mem_range_or_edges_eq_nil a) h
  rwa [OnCycle, leads_eq_edge] at this

/-- **No cycle is left.** -/
theorem acyclic_breakCycles (a : Arena) : a.breakCycles.1.Acyclic := by
  apply acyclic_of_wellFounded
  have h := wellFounded_kept (mem_range_or_edges_eq_nil a)
  refine Subrelation.wf ?_ h
  intro j i hij
  exact leads_cutEdges.mp (leads_iff_edge.mpr hij)

theorem backEdges_eq_nil_iff {a : Arena} : a.backEdges = [] ↔ a.Acyclic := by
  constructor
  · intro h
    have hcut := acyclic_breakCycles a
    rwa [breakCycles, h] at hcut
  · intro h
    refine List.eq_nil_iff_forall_not_mem.mpr fun p hp => ?_
    obtain ⟨hedge, hpath⟩ := onCycle_of_mem_backEdges hp
    exact h p.1 (TransGen.head' hedge hpath)

theorem breakCycles_of_acyclic {a : Arena} (h : a.Acyclic) : a.breakCycles = (a, []) := by
  rw [breakCycles, backEdges_eq_nil_iff.mpr h]
  rfl

/-- **A reference is unbound only if it lies on a cycle.** -/
theorem refsAt_breakCycles (a : Arena) (i : FieldId) :
    ∃ change : FieldRef → FieldRef, a.breakCycles.1.refsAt i = (a.refsAt i).map change ∧
      ∀ r, change r = r ∨ ∃ j, r.target = some j ∧ change r = { r with target := none } ∧
        a.Edge i j ∧ ReflTransGen a.Edge j i := by
  refine ⟨cutRef a.backEdges i, refsAt_cutEdges _ _ _, fun r => ?_⟩
  rcases cutRef_eq_or with h | ⟨j, hr, hcut, h⟩
  · exact Or.inl h
  · exact Or.inr ⟨j, hr, h, onCycle_of_mem_backEdges hcut⟩

/-- **A cycle is reported if and only if there is one.** -/
theorem exists_reportsCycle_breakCycles {a : Arena} :
    (∃ f ∈ a.breakCycles.2, f.reportsCycle) ↔ ¬ a.Acyclic := by
  constructor
  · rintro ⟨f, hf, -⟩ hac
    rw [breakCycles_of_acyclic hac] at hf
    simp at hf
  · intro h
    rw [← backEdges_eq_nil_iff] at h
    obtain ⟨⟨i, j⟩, hp⟩ := List.exists_mem_of_ne_nil _ h
    obtain ⟨f, r, hf, -⟩ := (onCycle_of_mem_backEdges hp).1
    obtain ⟨e, he⟩ := exists_mem_cutEdges (a := a) hp (by simp [hf])
    exact ⟨e, he, reportsCycle_of_mem_cutEdges he⟩

end Arena

end WireSchema
