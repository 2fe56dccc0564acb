import Mathlib.Logic.Function.Iterate
import WireSchema.Proofs.Access.Run

/-! # The passes of a run as layers

What a pass of a run emits is pending after the passes before it (`AccessLog.emittedIn`). It is a
layer of the graph of references: the places whose shortest way from the pending ones has as many
references as there are passes before (`mem_emittedIn_iff`). A pass records while it emits, but the
log after some passes depends on these ways only (`mem_iterate`). So the run has one pass more than
the greatest distance (`Runs.exists_isGreatest`). -/

namespace WireSchema.AccessLog

variable {a : Arena} {l : AccessLog} {r : Run} {x : FieldId} {k n : Nat}

/-- A way of `n` references leads from a pending place to this one, through places that were not
emitted before. -/
inductive Reaches (a : Arena) (l : AccessLog) : Nat → FieldId → Prop
  | pending {id : FieldId} (h : id ∈ l.pending) : Reaches a l 0 id
  | refers {n : Nat} {i j : FieldId} (hi : Reaches a l n i) (hij : a.Edge i j)
    (hj : j ∉ l.emitted) : Reaches a l (n + 1) j

/-- The shortest way to the place has `n` references. -/
def IsDistance (a : Arena) (l : AccessLog) (x : FieldId) (n : Nat) : Prop :=
  IsLeast {m | l.Reaches a m x} n

/-- What the pass after `k` others emits. -/
def emittedIn (a : Arena) (l : AccessLog) (k : Nat) : List FieldId := ((pass a)^[k] l).pending

theorem Reaches.not_mem_emitted (h : l.Reaches a n x) : x ∉ l.emitted := by
  cases h with
  | pending h => exact (mem_pending.mp h).2
  | refers _ _ hj => exact hj

theorem mem_pending_iff_pass : x ∈ l.pending ↔ x ∈ (l.pass a).emitted ∧ x ∉ l.emitted := by
  rw [mem_emitted_pass]
  constructor
  · intro h
    exact ⟨Or.inr h, (mem_pending.mp h).2⟩
  · rintro ⟨h, hnew⟩
    exact h.resolve_left hnew

/-- What was recorded before a pass is emitted after it. -/
theorem mem_emitted_pass_iff_accessed :
    x ∈ (l.pass a).emitted ↔ x ∈ l.emitted ∨ x ∈ l.accessed := by
  rw [mem_emitted_pass, mem_pending]
  by_cases hx : x ∈ l.emitted
  · exact iff_of_true (Or.inl hx) (Or.inl hx)
  · simp only [hx, false_or, not_false_eq_true, and_true]

/-! ### The log after some passes -/

theorem inOrder_iterate (h : l.InOrder) (a : Arena) (k : Nat) : ((pass a)^[k] l).InOrder := by
  induction k with
  | zero => exact h
  | succ k ih =>
    rw [Function.iterate_succ_apply']
    exact ih.pass a

/-- A way of at most `k` references has none, or it ends with a reference from the end of a shorter
one. -/
theorem exists_reaches_lt_succ (hx : x ∉ l.emitted) : (∃ n < k + 1, l.Reaches a n x) ↔
    x ∈ l.accessed ∨ ∃ i, (∃ n < k, l.Reaches a n i) ∧ a.Edge i x := by
  constructor
  · rintro ⟨n, hn, h⟩
    cases h with
    | pending h => exact Or.inl (mem_pending.mp h).1
    | @refers n i _ hi hij _ => exact Or.inr ⟨i, ⟨n, by omega, hi⟩, hij⟩
  · rintro (h | ⟨i, ⟨n, hn, hi⟩, hij⟩)
    · exact ⟨0, by omega, .pending (mem_pending.mpr ⟨h, hx⟩)⟩
    · exact ⟨n + 1, by omega, .refers hi hij hx⟩

/-- **After `k` passes**, the places with a way of less than `k` references are emitted, and what
they refer to is recorded. -/
theorem mem_iterate (a : Arena) (l : AccessLog) (k : Nat) (x : FieldId) :
    (x ∈ ((pass a)^[k] l).emitted ↔ x ∈ l.emitted ∨ ∃ n < k, l.Reaches a n x) ∧
    (x ∈ ((pass a)^[k] l).accessed ↔
      x ∈ l.accessed ∨ ∃ i, (∃ n < k, l.Reaches a n i) ∧ a.Edge i x) := by
  induction k generalizing x with
  | zero => simp
  | succ k ih =>
    have hmono {i : FieldId} : (∃ n < k, l.Reaches a n i) → ∃ n < k + 1, l.Reaches a n i :=
      fun ⟨n, hn, h⟩ => ⟨n, by omega, h⟩
    have hemitted (x : FieldId) : x ∈ (((pass a)^[k] l).pass a).emitted ↔
        x ∈ l.emitted ∨ ∃ n < k + 1, l.Reaches a n x := by
      rw [mem_emitted_pass_iff_accessed, (ih x).1, (ih x).2]
      by_cases hx : x ∈ l.emitted
      · exact iff_of_true (Or.inl (Or.inl hx)) (Or.inl hx)
      · rw [← exists_reaches_lt_succ hx, or_assoc, or_iff_right_of_imp hmono]
    rw [Function.iterate_succ_apply']
    refine ⟨hemitted x, ?_⟩
    rw [mem_accessed_pass, (ih x).2]
    constructor
    · rintro ((hx | ⟨i, hi, hix⟩) | ⟨i, hi, hix⟩)
      · exact Or.inl hx
      · exact Or.inr ⟨i, hmono hi, hix⟩
      · -- what is pending is emitted by the pass, and was not emitted at the start
        obtain ⟨-, hnew⟩ := mem_pending.mp hi
        have hafter := (hemitted i).mp (mem_emitted_pass.mpr (Or.inr hi))
        exact Or.inr ⟨i, hafter.resolve_left fun h => hnew ((ih i).1.mpr (Or.inl h)), hix⟩
    · rintro (hx | ⟨i, hi, hix⟩)
      · exact Or.inl (Or.inl hx)
      · rcases mem_emitted_pass.mp ((hemitted i).mpr (Or.inr hi)) with h | h
        · obtain ⟨n, -, hn⟩ := hi
          exact Or.inl (Or.inr ⟨i, ((ih i).1.mp h).resolve_left hn.not_mem_emitted, hix⟩)
        · exact Or.inr ⟨i, h, hix⟩

/-! ### Layers -/

/-- **The pass after `k` others emits the places at the distance `k`.** -/
theorem mem_emittedIn_iff : x ∈ l.emittedIn a k ↔ l.IsDistance a x k := by
  have hpending : x ∈ l.emittedIn a k ↔
      (∃ n < k + 1, l.Reaches a n x) ∧ ¬ ∃ n < k, l.Reaches a n x := by
    rw [emittedIn, mem_pending_iff_pass (a := a), ← Function.iterate_succ_apply' (pass a),
      (mem_iterate a l (k + 1) x).1, (mem_iterate a l k x).1, not_or]
    constructor
    · rintro ⟨hafter, hnew, hnone⟩
      exact ⟨hafter.resolve_left hnew, hnone⟩
    · rintro ⟨⟨n, hn, h⟩, hnone⟩
      exact ⟨Or.inr ⟨n, hn, h⟩, h.not_mem_emitted, hnone⟩
  rw [hpending]
  constructor
  · rintro ⟨⟨n, hn, h⟩, hnone⟩
    have hle {m : Nat} (hm : l.Reaches a m x) : k ≤ m := not_lt.mp fun hlt => hnone ⟨m, hlt, hm⟩
    obtain rfl : n = k := by
      have := hle h
      omega
    exact ⟨h, fun m hm => hle hm⟩
  · rintro ⟨h, hle⟩
    exact ⟨⟨k, by omega, h⟩, fun ⟨n, hn, hreach⟩ => absurd (hle hreach) (by omega)⟩

theorem pairwise_emittedIn (h : l.InOrder) (a : Arena) (k : Nat) :
    (l.emittedIn a k).Pairwise (· < ·) :=
  (inOrder_iterate h a k).accessed.filter _

theorem pass_of_pending_eq_nil (h : l.pending = []) : l.pass a = l := by
  unfold pass
  rw [h]
  rfl

namespace Runs

/-- **A run emits its layers one after the other.** -/
theorem order_eq (h : Runs a l r) : r.order = (List.range r.passes).flatMap (l.emittedIn a) := by
  induction h with
  | done => rfl
  | @pass l r _ _ ih =>
    rw [List.range_succ_eq_map, List.flatMap_cons, List.flatMap_map, ih]
    rfl

/-- The passes of a run are those with something to emit. -/
theorem emittedIn_ne_nil_iff (h : Runs a l r) : l.emittedIn a k ≠ [] ↔ k < r.passes := by
  induction h generalizing k with
  | @done l h =>
    have hnone : l.emittedIn a k = [] := by
      unfold emittedIn
      rw [Function.iterate_fixed (pass_of_pending_eq_nil h)]
      exact h
    exact iff_of_false (fun hne => hne hnone) (Nat.not_lt_zero k)
  | @pass l r h _ ih =>
    cases k with
    | zero => exact iff_of_true h (Nat.succ_pos _)
    | succ k => exact ih.trans Nat.succ_lt_succ_iff.symm

/-- A run has no pass exactly if nothing is pending. -/
theorem passes_eq_zero_iff (h : Runs a l r) : r.passes = 0 ↔ l.pending = [] := by
  rw [← not_iff_not, ← ne_eq, ← Nat.pos_iff_ne_zero]
  exact h.emittedIn_ne_nil_iff.symm

/-- **A run has one pass more than the greatest distance.** -/
theorem exists_isGreatest (h : Runs a l r) (hpending : l.pending ≠ []) :
    ∃ d, IsGreatest {n | ∃ x, l.IsDistance a x n} d ∧ r.passes = d + 1 := by
  have hlayer (k : Nat) : (∃ x, l.IsDistance a x k) ↔ k < r.passes := by
    rw [← h.emittedIn_ne_nil_iff, ne_eq, List.eq_nil_iff_forall_not_mem, not_forall]
    exact exists_congr fun x => mem_emittedIn_iff.symm.trans not_not.symm
  have hpasses : r.passes ≠ 0 := fun hzero => hpending (h.passes_eq_zero_iff.mp hzero)
  refine ⟨r.passes - 1, ⟨(hlayer _).mpr (by omega), fun n hn => ?_⟩, by omega⟩
  have := (hlayer n).mp hn
  omega

/-- **Every pass emits something.** -/
theorem passes_le_length_order (h : Runs a l r) : r.passes ≤ r.order.length := by
  induction h with
  | done => exact Nat.le_refl 0
  | @pass l r h _ ih =>
    have hpos := List.length_pos_iff.mpr h
    calc r.passes + 1 ≤ l.pending.length + r.order.length := by omega
      _ = (l.pending ++ r.order).length := List.length_append.symm

end Runs

end WireSchema.AccessLog
