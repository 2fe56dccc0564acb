import WireSchema.Proofs.Access.Layers
import WireSchema.Proofs.Schema.Binding
import WireSchema.Proofs.Session.Run

/-! # The fields in use of a linked schema

The bound references of a linked schema lead to fields of its arena (`lt_size_of_edge_link`), so
that a run over the fields in use comes to an end, whatever was recorded and emitted before
(`run_emits_least_cover`). Its passes are the layers of the graph of references
(`passes_are_layers`). -/

namespace WireSchema.Schema

open Relation Markup

variable {s : Schema}

/-- **The bound references of a linked schema lead to places of its arena.** -/
theorem lt_size_of_edge_link (hs : s.Indexed) (i j : FieldId) (h : s.link.1.arena.Edge i j) :
    j < s.link.1.arena.size := by
  obtain ⟨f, r, hf, hr, ht⟩ := h
  have hmem : r ∈ s.link.1.refs := mem_refs_iff.mpr (Or.inl ⟨f, Or.inl ⟨i, hf⟩, hr⟩)
  obtain ⟨g, hg, -⟩ := (eq_target_iff hs hmem ht j).mp rfl
  exact Arena.lt_size_of_get? hg

/-- **In a linked schema, a run over the fields in use emits the least set that covers the log**,
each of its fields once and no other. The bound on the passes does not cut the run short. Afterwards
nothing is pending, and a second run does nothing. -/
theorem run_emits_least_cover (s : Schema) (hs : s.Built) (l : AccessLog) (hl : l.InOrder)
    (hinside : l.Inside s.link.1.arena) :
    let a := s.link.1.arena
    let r := AccessLog.run a l
    AccessLog.Runs a l r ∧ r.passes ≤ a.size ∧
      (∃ N : Set FieldId, IsLeast {N | l.Covers a N} N ∧
        r.order.Nodup ∧ (∀ id, id ∈ r.order ↔ id ∈ N) ∧ (∀ id ∈ N, id < a.size) ∧
        (∀ id, id ∈ r.log.emitted ↔ id ∈ l.emitted ∨ id ∈ N) ∧
        (∀ id, id ∈ r.log.accessed ↔ id ∈ l.accessed ∨ ∃ i ∈ N, a.Edge i id) ∧
        (l.emitted = [] →
          ∀ id, id ∈ N ↔ ∃ start ∈ l.accessed, ReflTransGen a.Edge start id)) ∧
      r.log.pending = [] ∧ AccessLog.run a r.log = ⟨r.log, 0, []⟩ ∧
      ∀ ids ids' : List FieldId, (∀ id, id ∈ ids ↔ id ∈ ids') →
        AccessLog.run a (l.recordAll ids) = AccessLog.run a (l.recordAll ids') := by
  intro a r
  have hedges : ∀ i j, a.Edge i j → j < a.size := lt_size_of_edge_link hs.indexed
  have hrun : AccessLog.Runs a l r := AccessLog.runs_run hedges hinside
  refine ⟨hrun, AccessLog.passes_runWithin_le a a.size l, ⟨{id | l.Needs a id}, ?_⟩,
    hrun.pending_log, AccessLog.runWithin_of_pending_eq_nil hrun.pending_log, ?_⟩
  · refine ⟨l.isLeast_needs a, hrun.nodup_order hl, fun id => hrun.mem_order,
      fun id hid => hid.lt_size hedges hinside, fun id => ?_, fun id => ?_, fun hnone id => ?_⟩
    · rw [hrun.mem_emitted, hrun.mem_order]
      rfl
    · simp only [hrun.mem_accessed, hrun.mem_order, Set.mem_ofPred_eq]
    · exact AccessLog.needs_iff_reachable hnone
  · intro ids ids' hids
    rw [AccessLog.recordAll_congr hl hids]

/-- A document with a chain of references, and a bundle that refers to its end twice. -/
def demandDocument : Element :=
  ⟨"schema", [("name", "P")],
    [⟨"ref", [("name", "A"), ("field", "B")], [], "", 2⟩,
      ⟨"ref", [("name", "B"), ("field", "C")], [], "", 3⟩,
      ⟨"int", [("name", "C"), ("type", "uint8")], [], "", 4⟩,
      ⟨"bundle", [("name", "D")],
        [⟨"ref", [("name", "x"), ("field", "C")], [], "", 6⟩,
          ⟨"ref", [("name", "y"), ("field", "C")], [], "", 7⟩], "", 5⟩],
    "", 1⟩

/-- In `demandDocument`, with `A` and `D` recorded, a first pass emits these two, and a second one
what the chain leads to. The end of the chain was emitted before. -/
theorem run_emits_least_cover_demandDocument :
    ∃ s : Schema, s.Built ∧ ∃ l : AccessLog, l.InOrder ∧ l.Inside s.link.1.arena ∧
      (AccessLog.run s.link.1.arena l).order = [0, 3, 1] ∧
      (let a := s.link.1.arena
       let r := AccessLog.run a l
       AccessLog.Runs a l r ∧ r.passes ≤ a.size ∧
        (∃ N : Set FieldId, IsLeast {N | l.Covers a N} N ∧
          r.order.Nodup ∧ (∀ id, id ∈ r.order ↔ id ∈ N) ∧ (∀ id ∈ N, id < a.size) ∧
          (∀ id, id ∈ r.log.emitted ↔ id ∈ l.emitted ∨ id ∈ N) ∧
          (∀ id, id ∈ r.log.accessed ↔ id ∈ l.accessed ∨ ∃ i ∈ N, a.Edge i id) ∧
          (l.emitted = [] →
            ∀ id, id ∈ N ↔ ∃ start ∈ l.accessed, ReflTransGen a.Edge start id)) ∧
        r.log.pending = [] ∧ AccessLog.run a r.log = ⟨r.log, 0, []⟩ ∧
        ∀ ids ids' : List FieldId, (∀ id, id ∈ ids ↔ id ∈ ids') →
          AccessLog.run a (l.recordAll ids) = AccessLog.run a (l.recordAll ids')) := by
  have heval : (Session.after ⟨none, 0, none, false⟩ [.element demandDocument]).schema.any (fun s =>
      s.link.1.arena.size == 4 &&
        (AccessLog.run s.link.1.arena ⟨[0, 3], [2]⟩).order == [0, 3, 1]) = true := by
    decide +kernel
  cases hs : (Session.after ⟨none, 0, none, false⟩ [.element demandDocument]).schema with
  | none => simp [hs] at heval
  | some s =>
    rw [hs, Option.any_some, Bool.and_eq_true, beq_iff_eq, beq_iff_eq] at heval
    obtain ⟨hsize, horder⟩ := heval
    have hbuilt : s.Built := (Session.reachable_after _ _).built (by decide +kernel) s hs
    have hinorder : AccessLog.InOrder ⟨[0, 3], [2]⟩ := ⟨by decide, by decide⟩
    have hinside : AccessLog.Inside s.link.1.arena ⟨[0, 3], [2]⟩ := by
      rw [AccessLog.Inside, hsize]
      decide
    exact ⟨s, hbuilt, ⟨[0, 3], [2]⟩, hinorder, hinside, horder,
      run_emits_least_cover s hbuilt ⟨[0, 3], [2]⟩ hinorder hinside⟩

/-! ### Passes -/

/-- **In a linked schema, the passes of a run are layers.** The pass after `k` others emits the
fields whose shortest way from the pending ones, through fields that were not emitted before, has
`k` references, in the order of the arena. There is no pass if nothing is pending, and otherwise one
more than the greatest of these distances, which is never more than there are fields emitted in the
run. -/
theorem passes_are_layers (s : Schema) (hs : s.Built) (l : AccessLog) (hl : l.InOrder)
    (hinside : l.Inside s.link.1.arena) :
    let a := s.link.1.arena
    let r := AccessLog.run a l
    r.order = (List.range r.passes).flatMap (l.emittedIn a) ∧
      (∀ k, l.emittedIn a k ≠ [] ↔ k < r.passes) ∧
      (∀ k id, id ∈ l.emittedIn a k ↔ l.IsDistance a id k) ∧
      (∀ k, (l.emittedIn a k).Pairwise (· < ·)) ∧
      (r.passes = 0 ↔ l.pending = []) ∧
      (l.pending ≠ [] →
        ∃ d, IsGreatest {n | ∃ id, l.IsDistance a id n} d ∧ r.passes = d + 1) ∧
      r.passes ≤ r.order.length := by
  intro a r
  have hrun : AccessLog.Runs a l r := AccessLog.runs_run (lt_size_of_edge_link hs.indexed) hinside
  exact ⟨hrun.order_eq, fun _ => hrun.emittedIn_ne_nil_iff, fun _ _ => AccessLog.mem_emittedIn_iff,
    fun k => AccessLog.pairwise_emittedIn hl a k, hrun.passes_eq_zero_iff, hrun.exists_isGreatest,
    hrun.passes_le_length_order⟩

/-- A document with two ways to a field, one of them shorter, and a bundle that refers to all fields
but the last one. -/
def shortcutDocument : Element :=
  ⟨"schema", [("name", "P")],
    [⟨"int", [("name", "E"), ("type", "uint8")], [], "", 2⟩,
      ⟨"ref", [("name", "C"), ("field", "E")], [], "", 3⟩,
      ⟨"ref", [("name", "B"), ("field", "C")], [], "", 4⟩,
      ⟨"bundle", [("name", "A")],
        [⟨"ref", [("name", "x"), ("field", "B")], [], "", 6⟩,
          ⟨"ref", [("name", "y"), ("field", "C")], [], "", 7⟩,
          ⟨"ref", [("name", "z"), ("field", "Z")], [], "", 8⟩], "", 5⟩,
      ⟨"ref", [("name", "Z"), ("field", "E")], [], "", 9⟩],
    "", 1⟩

/-- In `shortcutDocument`, with `A` recorded and `Z` emitted before, `B` and `C` are one reference
away, and `E` is two, since the way through `Z` does not count. -/
theorem passes_of_shortcutDocument :
    ∃ s : Schema, s.Built ∧ ∃ l : AccessLog, l.InOrder ∧ l.Inside s.link.1.arena ∧
      l.pending ≠ [] ∧ (List.range 3).map (l.emittedIn s.link.1.arena) = [[3], [1, 2], [0]] ∧
      (let a := s.link.1.arena
       let r := AccessLog.run a l
       r.order = (List.range r.passes).flatMap (l.emittedIn a) ∧
        (∀ k, l.emittedIn a k ≠ [] ↔ k < r.passes) ∧
        (∀ k id, id ∈ l.emittedIn a k ↔ l.IsDistance a id k) ∧
        (∀ k, (l.emittedIn a k).Pairwise (· < ·)) ∧
        (r.passes = 0 ↔ l.pending = []) ∧
        (l.pending ≠ [] →
          ∃ d, IsGreatest {n | ∃ id, l.IsDistance a id n} d ∧ r.passes = d + 1) ∧
        r.passes ≤ r.order.length) := by
  have heval : (Session.after ⟨none, 0, none, false⟩ [.element shortcutDocument]).schema.any
      (fun s => s.link.1.arena.size == 5 &&
        (List.range 3).map (AccessLog.emittedIn s.link.1.arena ⟨[3, 4], [4]⟩) ==
          [[3], [1, 2], [0]]) = true := by
    decide +kernel
  cases hs : (Session.after ⟨none, 0, none, false⟩ [.element shortcutDocument]).schema with
  | none => simp [hs] at heval
  | some s =>
    rw [hs, Option.any_some, Bool.and_eq_true, beq_iff_eq, beq_iff_eq] at heval
    obtain ⟨hsize, hlayers⟩ := heval
    have hbuilt : s.Built := (Session.reachable_after _ _).built (by decide +kernel) s hs
    have hinorder : AccessLog.InOrder ⟨[3, 4], [4]⟩ := ⟨by decide, by decide⟩
    have hinside : AccessLog.Inside s.link.1.arena ⟨[3, 4], [4]⟩ := by
      rw [AccessLog.Inside, hsize]
      decide
    exact ⟨s, hbuilt, ⟨[3, 4], [4]⟩, hinorder, hinside, by decide, hlayers,
      passes_are_layers s hbuilt ⟨[3, 4], [4]⟩ hinorder hinside⟩

end WireSchema.Schema
