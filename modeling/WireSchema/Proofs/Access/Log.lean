import Mathlib.Data.List.Sort
import WireSchema.Access
import WireSchema.Proofs.Cycle.Cut

/-! # The log of fields in use

The two lists of a log stand for sets of places: they are kept in the order of the arena and without
repeats (`AccessLog.InOrder`). So the order in which fields are recorded leaves no trace
(`recordAll_congr`). A pass emits the places that are pending and records what they refer to
(`mem_emitted_pass`, `mem_accessed_pass`). -/

namespace WireSchema

variable {id x : FieldId} {xs : List FieldId}

/-! ### Places in order -/

theorem mem_insertPlace : x ∈ insertPlace id xs ↔ x = id ∨ x ∈ xs := by
  induction xs with
  | nil => simp [insertPlace]
  | cons y ys ih =>
    unfold insertPlace
    split_ifs with hlt heq
    · exact List.mem_cons
    · subst heq
      simp
    · rw [List.mem_cons, List.mem_cons, ih, or_left_comm]

theorem pairwise_insertPlace (h : xs.Pairwise (· < ·)) :
    (insertPlace id xs).Pairwise (· < ·) := by
  induction xs with
  | nil => exact List.pairwise_singleton _ _
  | cons y ys ih =>
    obtain ⟨hy, hys⟩ := List.pairwise_cons.mp h
    unfold insertPlace
    split_ifs with hlt heq
    · refine List.pairwise_cons.mpr ⟨fun z hz => ?_, h⟩
      rcases List.mem_cons.mp hz with rfl | hz
      · exact hlt
      · exact lt_trans hlt (hy z hz)
    · exact h
    · refine List.pairwise_cons.mpr ⟨fun z hz => ?_, ih hys⟩
      rcases mem_insertPlace.mp hz with rfl | hz
      · exact lt_of_le_of_ne (not_lt.mp hlt) (Ne.symm heq)
      · exact hy z hz

namespace AccessLog

variable {a : Arena} {l : AccessLog} {ids ids' : List FieldId}

/-- Both lists are in the order of the arena, without repeats. -/
structure InOrder (l : AccessLog) : Prop where
  accessed : l.accessed.Pairwise (· < ·)
  emitted : l.emitted.Pairwise (· < ·)

theorem inOrder_empty : empty.InOrder := ⟨List.Pairwise.nil, List.Pairwise.nil⟩

theorem mem_pending : x ∈ l.pending ↔ x ∈ l.accessed ∧ x ∉ l.emitted := by
  simp [pending]

theorem InOrder.nodup_pending (h : l.InOrder) : l.pending.Nodup :=
  (h.accessed.filter _).imp ne_of_lt

/-! ### Recording -/

theorem InOrder.recordAll (h : l.InOrder) (ids : List FieldId) : (l.recordAll ids).InOrder := by
  induction ids generalizing l with
  | nil => exact h
  | cons id ids ih => exact ih ⟨pairwise_insertPlace h.accessed, h.emitted⟩

@[simp] theorem emitted_recordAll : (l.recordAll ids).emitted = l.emitted := by
  induction ids generalizing l with
  | nil => rfl
  | cons id ids ih => exact ih

theorem mem_accessed_recordAll : x ∈ (l.recordAll ids).accessed ↔ x ∈ l.accessed ∨ x ∈ ids := by
  induction ids generalizing l with
  | nil => simp [AccessLog.recordAll]
  | cons id ids ih =>
    have hstep : x ∈ (l.record id).accessed ↔ x = id ∨ x ∈ l.accessed := mem_insertPlace
    show x ∈ ((l.record id).recordAll ids).accessed ↔ _
    rw [ih, hstep, List.mem_cons, or_assoc, or_left_comm]

/-- **The order of recording makes no difference.** -/
theorem recordAll_congr (h : l.InOrder) (hids : ∀ id, id ∈ ids ↔ id ∈ ids') :
    l.recordAll ids = l.recordAll ids' := by
  have haccessed : (l.recordAll ids).accessed = (l.recordAll ids').accessed := by
    refine (h.recordAll ids).accessed.eq_of_mem_iff (h.recordAll ids').accessed fun x => ?_
    rw [mem_accessed_recordAll, mem_accessed_recordAll, hids x]
  rw [AccessLog.mk.injEq]
  exact ⟨haccessed, emitted_recordAll.trans emitted_recordAll.symm⟩

/-! ### Emitting -/

theorem emit_eq (a : Arena) (l : AccessLog) (id : FieldId) :
    emit a l id = (l.markEmitted id).recordAll (a.edges id) := by
  unfold emit Arena.edges
  cases a.get? id <;> rfl

theorem InOrder.emit (h : l.InOrder) (a : Arena) (id : FieldId) : (emit a l id).InOrder := by
  have hmarked : (l.markEmitted id).InOrder := ⟨h.accessed, pairwise_insertPlace h.emitted⟩
  rw [emit_eq]
  exact hmarked.recordAll _

theorem mem_emitted_emit : x ∈ (emit a l id).emitted ↔ x ∈ l.emitted ∨ x = id := by
  rw [emit_eq, emitted_recordAll]
  exact mem_insertPlace.trans or_comm

theorem mem_accessed_emit : x ∈ (emit a l id).accessed ↔ x ∈ l.accessed ∨ a.Edge id x := by
  rw [emit_eq, mem_accessed_recordAll, ← Arena.leads_iff_edge]
  rfl

theorem mem_emitted_foldl_emit :
    x ∈ (ids.foldl (emit a) l).emitted ↔ x ∈ l.emitted ∨ x ∈ ids := by
  induction ids generalizing l with
  | nil => simp
  | cons id ids ih => rw [List.foldl_cons, ih, mem_emitted_emit, List.mem_cons, or_assoc]

theorem mem_accessed_foldl_emit :
    x ∈ (ids.foldl (emit a) l).accessed ↔ x ∈ l.accessed ∨ ∃ i ∈ ids, a.Edge i x := by
  induction ids generalizing l with
  | nil => simp
  | cons id ids ih =>
    rw [List.foldl_cons, ih, mem_accessed_emit, List.exists_mem_cons_iff, or_assoc]

/-! ### One pass -/

/-- The log after the pending fields were emitted. -/
def pass (a : Arena) (l : AccessLog) : AccessLog := l.pending.foldl (emit a) l

theorem InOrder.pass (h : l.InOrder) (a : Arena) : (l.pass a).InOrder :=
  List.foldlRecOn l.pending (AccessLog.emit a) h fun _ h id _ => h.emit a id

/-- **A pass emits what is pending**, -/
theorem mem_emitted_pass : x ∈ (l.pass a).emitted ↔ x ∈ l.emitted ∨ x ∈ l.pending :=
  mem_emitted_foldl_emit

/-- **and records what it refers to.** -/
theorem mem_accessed_pass :
    x ∈ (l.pass a).accessed ↔ x ∈ l.accessed ∨ ∃ i ∈ l.pending, a.Edge i x :=
  mem_accessed_foldl_emit

end AccessLog

end WireSchema
