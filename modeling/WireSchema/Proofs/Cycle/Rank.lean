import Mathlib.Data.Finset.Card
import Mathlib.Data.Finset.Range
import WireSchema.Proofs.Cycle.Cut

/-! # Ranks of places

The rank of a place is the number of places that its references lead to, one after the other. In an
arena without cycles it falls along every reference (`rank_lt_of_edge`) and is less than the number
of places (`rank_lt_size`). What is done along references thus ends after as many of them as the
rank says (`below_rank`), or as there are places if it starts outside of the arena
(`below_size`). -/

namespace WireSchema.Arena

open Relation

variable {a : Arena} {i j : FieldId} {f t : Field} {k : Nat}

open Classical in
/-- The number of places that a place leads to over one reference or more. -/
noncomputable def rank (a : Arena) (i : FieldId) : Nat :=
  ((Finset.range a.size).filter fun j => TransGen a.Edge i j).card

theorem rank_lt_of_edge (h : a.Acyclic) (hij : a.Edge i j) (hj : a.get? j = some t) :
    a.rank j < a.rank i := by
  classical
  refine Finset.card_lt_card (Finset.ssubset_iff_subset_ne.mpr ⟨fun k hk => ?_, fun heq => ?_⟩)
  · rw [Finset.mem_filter] at hk ⊢
    exact ⟨hk.1, TransGen.head hij hk.2⟩
  · -- `i` leads to `j`, but `j` does not lead to itself
    have hmem : j ∈ (Finset.range a.size).filter fun k => TransGen a.Edge i k :=
      Finset.mem_filter.mpr ⟨Finset.mem_range.mpr (lt_size_of_get? hj), TransGen.single hij⟩
    rw [← heq, Finset.mem_filter] at hmem
    exact h j hmem.2

theorem rank_lt_size (h : a.Acyclic) (hi : a.get? i = some f) : a.rank i < a.size := by
  classical
  have hlt : a.rank i < (Finset.range a.size).card := by
    refine Finset.card_lt_card (Finset.ssubset_iff_subset_ne.mpr
      ⟨Finset.filter_subset _ _, fun heq => ?_⟩)
    have hmem : i ∈ Finset.range a.size := Finset.mem_range.mpr (lt_size_of_get? hi)
    rw [← heq, Finset.mem_filter] at hmem
    exact h i hmem.2
  rwa [Finset.card_range] at hlt

/-- The references in the field are bound to places of a rank below `k`. -/
def Below (a : Arena) (k : Nat) (f : Field) : Prop :=
  ∀ r ∈ f.refs, ∀ j t, r.target = some j → a.get? j = some t → a.rank j < k

theorem below_rank (h : a.Acyclic) (hi : a.get? i = some f) : a.Below (a.rank i) f := by
  intro r hr j t hj ht
  exact rank_lt_of_edge h ⟨f, r, hi, Field.mem_refs_iff_holds.mp hr, hj⟩ ht

theorem below_size (h : a.Acyclic) (f : Field) : a.Below a.size f :=
  fun _ _ _ _ _ ht => rank_lt_size h ht

theorem Below.inner {g : Field} (h : a.Below k f) (hg : g ∈ f.inner) : a.Below k g :=
  fun r hr => h r (Field.mem_refs.mpr (Or.inr ⟨g, hg, hr⟩))

theorem Below.target?_eq_none {r : FieldRef} (h : a.Below 0 f) (hr : r ∈ f.refs) :
    a.target? r = none := by
  cases ht : a.target? r with
  | none => rfl
  | some t =>
    obtain ⟨j, hj, ht⟩ := Option.bind_eq_some_iff.mp ht
    exact absurd (h r hr j t hj ht) (Nat.not_lt_zero _)

/-- The field that a reference is bound to comes after fewer references. -/
theorem Below.target {r : FieldRef} (hac : a.Acyclic) (h : a.Below k f) (hr : r ∈ f.refs)
    (ht : a.target? r = some t) : ∃ m < k, a.Below m t := by
  obtain ⟨j, hj, ht⟩ := Option.bind_eq_some_iff.mp ht
  exact ⟨a.rank j, h r hr j t hj ht, below_rank hac ht⟩

end WireSchema.Arena
