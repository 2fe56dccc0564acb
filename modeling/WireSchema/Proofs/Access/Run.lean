import Mathlib.Data.Finset.Card
import Mathlib.Data.Finset.Range
import Mathlib.Order.Bounds.Defs
import WireSchema.Proofs.Access.Log

/-! # Runs over the fields in use

A run goes on, pass after pass, until nothing is pending (`AccessLog.Runs`). In an arena whose
references lead to places in it, it comes to an end after as many passes as there are places at most
(`runs_run`). What it emits is the least set that holds the pending places and, with a place, those
that it refers to and that were not emitted before (`isLeast_needs`, `Runs.mem_order`). -/

namespace WireSchema

open Relation

namespace AccessLog

variable {a : Arena} {l : AccessLog} {r r' : Run} {id x : FieldId} {limit : Nat}

/-! ### What is needed -/

/-- The set holds the places that are pending, and with a place all places that it refers to and
that were not emitted before. -/
def Covers (a : Arena) (l : AccessLog) (N : Set FieldId) : Prop :=
  (∀ id ∈ l.accessed, id ∉ l.emitted → id ∈ N) ∧
    ∀ i ∈ N, ∀ j, a.Edge i j → j ∉ l.emitted → j ∈ N

/-- The place is pending, or it was not emitted before and a needed place refers to it. -/
inductive Needs (a : Arena) (l : AccessLog) : FieldId → Prop
  | pending {id : FieldId} (h : id ∈ l.pending) : Needs a l id
  | refers {i j : FieldId} (hi : Needs a l i) (hij : a.Edge i j) (hj : j ∉ l.emitted) :
    Needs a l j

theorem Needs.not_mem_emitted (h : l.Needs a x) : x ∉ l.emitted := by
  cases h with
  | pending h => exact (mem_pending.mp h).2
  | refers _ _ hj => exact hj

/-- **What is needed is the least set that covers the log.** -/
theorem isLeast_needs (a : Arena) (l : AccessLog) :
    IsLeast {N | l.Covers a N} {id | l.Needs a id} := by
  refine ⟨⟨fun id hid hnew => .pending (mem_pending.mpr ⟨hid, hnew⟩),
    fun i hi j hij hj => .refers hi hij hj⟩, fun N hN id hid => ?_⟩
  induction hid with
  | pending h => exact hN.1 _ (mem_pending.mp h).1 (mem_pending.mp h).2
  | refers _ hij hj ih => exact hN.2 _ ih _ hij hj

/-- Where nothing was emitted before, the needed places are those that can be reached. -/
theorem needs_iff_reachable (h : l.emitted = []) :
    l.Needs a x ↔ ∃ start ∈ l.accessed, ReflTransGen a.Edge start x := by
  have hnew (id : FieldId) : id ∉ l.emitted := by simp [h]
  constructor
  · intro hx
    induction hx with
    | pending h => exact ⟨_, (mem_pending.mp h).1, ReflTransGen.refl⟩
    | refers _ hij _ ih =>
      obtain ⟨start, hstart, hpath⟩ := ih
      exact ⟨start, hstart, hpath.tail hij⟩
  · rintro ⟨start, hstart, hpath⟩
    induction hpath with
    | refl => exact .pending (mem_pending.mpr ⟨hstart, hnew _⟩)
    | tail _ hij ih => exact .refers ih hij (hnew _)

/-- **One pass takes the pending places from what is needed**, and leaves all else. -/
theorem needs_iff_pass : l.Needs a x ↔ x ∈ l.pending ∨ (l.pass a).Needs a x := by
  constructor
  · intro hx
    induction hx with
    | pending h => exact Or.inl h
    | @refers i j _ hij hj ih =>
      by_cases hpending : j ∈ l.pending
      · exact Or.inl hpending
      · have hnew : j ∉ (l.pass a).emitted := by
          rw [mem_emitted_pass]
          exact not_or.mpr ⟨hj, hpending⟩
        rcases ih with hi | hi
        · have hrecorded : j ∈ (l.pass a).accessed := mem_accessed_pass.mpr (Or.inr ⟨i, hi, hij⟩)
          exact Or.inr (.pending (mem_pending.mpr ⟨hrecorded, hnew⟩))
        · exact Or.inr (.refers hi hij hnew)
  · rintro (hx | hx)
    · exact .pending hx
    · have hbefore {j : FieldId} (hj : j ∉ (l.pass a).emitted) : j ∉ l.emitted :=
        fun h => hj (mem_emitted_pass.mpr (Or.inl h))
      induction hx with
      | pending h =>
        obtain ⟨haccessed, hnew⟩ := mem_pending.mp h
        rcases mem_accessed_pass.mp haccessed with haccessed | ⟨i, hi, hij⟩
        · exact .pending (mem_pending.mpr ⟨haccessed, hbefore hnew⟩)
        · exact .refers (.pending hi) hij (hbefore hnew)
      | refers _ hij hj ih => exact .refers ih hij (hbefore hj)

/-! ### The run without a bound -/

/-- Passes follow each other until nothing is pending; the run counts them, and lists the places in
the order in which they are emitted. -/
inductive Runs (a : Arena) : AccessLog → Run → Prop
  | done {l : AccessLog} (h : l.pending = []) : Runs a l ⟨l, 0, []⟩
  | pass {l : AccessLog} {r : Run} (h : l.pending ≠ []) (hr : Runs a (l.pass a) r) :
    Runs a l ⟨r.log, r.passes + 1, l.pending ++ r.order⟩

/-- A log has no other run. -/
theorem Runs.unique (h : Runs a l r) (h' : Runs a l r') : r = r' := by
  induction h generalizing r' with
  | done h =>
    cases h' with
    | done => rfl
    | pass h' => exact absurd h h'
  | pass h _ ih =>
    cases h' with
    | done h' => exact absurd h' h
    | pass _ hr' => rw [ih hr']

/-- **When a run ends, nothing is pending.** -/
theorem Runs.pending_log (h : Runs a l r) : r.log.pending = [] := by
  induction h with
  | done h => exact h
  | pass _ _ ih => exact ih

/-- **A run emits the needed places**, and no others. -/
theorem Runs.mem_order (h : Runs a l r) : x ∈ r.order ↔ l.Needs a x := by
  induction h with
  | @done l h =>
    refine iff_of_false List.not_mem_nil fun hx => ?_
    -- without a pending place there is none to begin with
    induction hx with
    | pending hid => simp [h] at hid
    | refers _ _ _ ih => exact ih
  | pass _ _ ih => rw [List.mem_append, ih, ← needs_iff_pass]

/-- **Each of them is emitted once.** -/
theorem Runs.nodup_order (h : Runs a l r) (hl : l.InOrder) : r.order.Nodup := by
  induction h with
  | done => exact List.nodup_nil
  | @pass l r _ hr ih =>
    refine List.nodup_append'.mpr ⟨hl.nodup_pending, ih (hl.pass a), fun x hx hrest => ?_⟩
    exact (hr.mem_order.mp hrest).not_mem_emitted (mem_emitted_pass.mpr (Or.inr hx))

theorem Runs.mem_emitted (h : Runs a l r) : x ∈ r.log.emitted ↔ x ∈ l.emitted ∨ x ∈ r.order := by
  induction h with
  | done => simp
  | pass _ _ ih => rw [ih, mem_emitted_pass, List.mem_append, or_assoc]

theorem Runs.mem_accessed (h : Runs a l r) :
    x ∈ r.log.accessed ↔ x ∈ l.accessed ∨ ∃ i ∈ r.order, a.Edge i x := by
  induction h with
  | done => simp
  | pass _ _ ih =>
    simp only [ih, mem_accessed_pass, List.mem_append, or_and_right, exists_or, or_assoc]

/-! ### The run with a bound -/

theorem runWithin_of_pending_eq_nil (h : l.pending = []) :
    runWithin a limit l = ⟨l, 0, []⟩ := by
  cases limit with
  | zero => rfl
  | succ limit =>
    unfold runWithin
    rw [h]

theorem runWithin_succ (h : l.pending ≠ []) :
    runWithin a (limit + 1) l =
      ⟨(runWithin a limit (l.pass a)).log, (runWithin a limit (l.pass a)).passes + 1,
        l.pending ++ (runWithin a limit (l.pass a)).order⟩ := by
  cases hids : l.pending with
  | nil => exact absurd hids h
  | cons id ids => simp only [runWithin, pass, hids]

theorem passes_runWithin_le (a : Arena) (limit : Nat) (l : AccessLog) :
    (runWithin a limit l).passes ≤ limit := by
  induction limit generalizing l with
  | zero => exact Nat.le_refl 0
  | succ limit ih =>
    by_cases h : l.pending = []
    · rw [runWithin_of_pending_eq_nil h]
      exact Nat.zero_le _
    · rw [runWithin_succ h]
      exact Nat.succ_le_succ (ih _)

/-- The recorded places are places of the arena. -/
def Inside (a : Arena) (l : AccessLog) : Prop := ∀ id ∈ l.accessed, id < a.size

theorem Inside.pass (hedges : ∀ i j, a.Edge i j → j < a.size) (h : l.Inside a) :
    (l.pass a).Inside a := by
  intro id hid
  rcases mem_accessed_pass.mp hid with hid | ⟨i, -, hi⟩
  · exact h id hid
  · exact hedges i id hi

/-- There is a field at each needed place. -/
theorem Needs.lt_size (hedges : ∀ i j, a.Edge i j → j < a.size) (h : l.Inside a)
    (hx : l.Needs a x) : x < a.size := by
  cases hx with
  | pending hx => exact h x (mem_pending.mp hx).1
  | refers _ hij _ => exact hedges _ x hij

/-- The places of the arena that were not emitted. -/
def remaining (a : Arena) (l : AccessLog) : Finset FieldId :=
  (Finset.range a.size).filter (· ∉ l.emitted)

theorem Inside.mem_remaining (h : l.Inside a) (hid : id ∈ l.pending) : id ∈ l.remaining a := by
  obtain ⟨haccessed, hnew⟩ := mem_pending.mp hid
  exact Finset.mem_filter.mpr ⟨Finset.mem_range.mpr (h id haccessed), hnew⟩

/-- A pass with something to do leaves fewer places to emit. -/
theorem card_remaining_pass_lt (h : l.Inside a) (hpending : l.pending ≠ []) :
    ((l.pass a).remaining a).card < (l.remaining a).card := by
  have hmem {x : FieldId} :
      x ∈ (l.pass a).remaining a ↔ x ∈ l.remaining a ∧ x ∉ l.pending := by
    rw [remaining, remaining, Finset.mem_filter, Finset.mem_filter, mem_emitted_pass, not_or,
      and_assoc]
  obtain ⟨id, hid⟩ := List.exists_mem_of_ne_nil _ hpending
  have hsubset : (l.pass a).remaining a ⊆ l.remaining a := fun x hx => (hmem.mp hx).1
  refine Finset.card_lt_card ((Finset.ssubset_iff_of_subset hsubset).mpr ?_)
  exact ⟨id, h.mem_remaining hid, fun hleft => (hmem.mp hleft).2 hid⟩

/-- With as many passes as there are places left, the run comes to its end. -/
theorem runs_runWithin (hedges : ∀ i j, a.Edge i j → j < a.size) (h : l.Inside a)
    (hlimit : (l.remaining a).card ≤ limit) : Runs a l (runWithin a limit l) := by
  induction limit generalizing l with
  | zero =>
    have hnone : l.pending = [] := by
      refine List.eq_nil_iff_forall_not_mem.mpr fun id hid => ?_
      have hmem := h.mem_remaining hid
      rw [Finset.card_eq_zero.mp (Nat.le_zero.mp hlimit)] at hmem
      exact Finset.notMem_empty id hmem
    exact .done hnone
  | succ limit ih =>
    by_cases hpending : l.pending = []
    · rw [runWithin_of_pending_eq_nil hpending]
      exact .done hpending
    · have hlt := card_remaining_pass_lt h hpending
      rw [runWithin_succ hpending]
      exact .pass hpending (ih (h.pass hedges) (by omega))

/-- **A run comes to an end**, and the bound on its passes does not cut it short. -/
theorem runs_run (hedges : ∀ i j, a.Edge i j → j < a.size) (h : l.Inside a) :
    Runs a l (run a l) := by
  refine runs_runWithin hedges h ?_
  calc (l.remaining a).card ≤ (Finset.range a.size).card := Finset.card_filter_le _ _
    _ = a.size := Finset.card_range _

end AccessLog

end WireSchema
