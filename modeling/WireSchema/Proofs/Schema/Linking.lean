import WireSchema.Proofs.Cycle.Cut
import WireSchema.Proofs.Schema.MessageIds

/-! # Linking a schema, step by step

References are bound, cycles are cut, fields are completed and messages are numbered. The last two
steps change no reference and find no error but about message ids (`refs_root_link`,
`refsAt_arena_link`, `link_findings`). Hence a linked schema has no cycle of references, and a
cycle is reported just when there was one (`link_breaks_cycles`). -/

namespace WireSchema

open Relation

/-! ### The graph -/

namespace Arena

theorem edge_eq_of_refsAt_eq {a b : Arena} (h : ∀ i, a.refsAt i = b.refsAt i) :
    a.Edge = b.Edge := by
  rw [← leads_eq_edge, ← leads_eq_edge]
  funext i j
  simp only [Leads, edges_eq_filterMap, h i]

theorem acyclic_complete {a : Arena} : a.complete.1.Acyclic ↔ a.Acyclic := by
  unfold Acyclic
  rw [edge_eq_of_refsAt_eq (refsAt_complete a)]

end Arena

/-! ### Findings of the completion -/

theorem completeMembers_snd (a : Arena) (fs : List Field) :
    (completeMembers a fs).2 = fs.flatMap fun f => (f.complete a).2 := by
  induction fs with
  | nil => simp [completeMembers]
  | cons f fs ih => simp [completeMembers, ih]

theorem isError_of_mem_keepAliases {a : Arena} {f : Field} {aliases : List Alias} {x : Finding}
    (h : x ∈ (keepAliases a f aliases).2) : x.isError = false := by
  simp only [keepAliases, List.mem_map] at h
  obtain ⟨other, -, rfl⟩ := h
  rfl

theorem isError_of_mem_completePrefix {a : Arena} {p : Option Prefix} {x : Finding}
    (hp : ∀ f ∈ prefixInner p, ∀ x ∈ (f.complete a).2, x.isError = false)
    (h : x ∈ (completePrefix a p).2) : x.isError = false := by
  rcases p with _ | p
  · simp [completePrefix] at h
  · cases p with
    | inline f => exact hp f (by simp [prefixInner]) x (by simpa [completePrefix] using h)
    | named p => simp [completePrefix] at h

theorem isError_of_mem_completeMembers {a : Arena} {fs : List Field} {x : Finding}
    (hf : ∀ f ∈ fs, ∀ x ∈ (f.complete a).2, x.isError = false)
    (h : x ∈ (completeMembers a fs).2) : x.isError = false := by
  rw [completeMembers_snd, List.mem_flatMap] at h
  obtain ⟨f, hfs, h⟩ := h
  exact hf f hfs x h

theorem Field.isError_of_mem_complete {a : Arena} (f : Field) :
    ∀ x ∈ (f.complete a).2, x.isError = false := by
  induction f using nested_induction with
  | step f ih =>
    obtain ⟨core, body⟩ := f
    change ∀ f ∈ body.inner, _ at ih
    intro x hx
    cases body with
    | bitfield endian length members =>
      simp only [complete] at hx
      exact isError_of_mem_completeMembers ih hx
    | bundle members aliases =>
      simp only [complete, List.mem_append] at hx
      rcases hx with hx | hx
      · exact isError_of_mem_completeMembers ih hx
      · exact isError_of_mem_keepAliases hx
    | variant members default aliases =>
      simp only [complete, List.mem_append] at hx
      rcases hx with hx | hx
      · exact isError_of_mem_completeMembers ih hx
      · exact isError_of_mem_keepAliases hx
    | list element count c l el fixed =>
      simp only [Body.inner, List.mem_append] at ih
      have hc := fun f hf => ih f (Or.inr (Or.inl hf))
      have hl := fun f hf => ih f (Or.inr (Or.inr (Or.inl hf)))
      have hel := fun f hf => ih f (Or.inr (Or.inr (Or.inr hf)))
      cases element with
      | inline e =>
        simp only [complete, List.mem_append] at hx
        rcases hx with hx | hx | hx | hx
        · exact ih e (Or.inl (by simp [Part.inner])) x hx
        · exact isError_of_mem_completePrefix hc hx
        · exact isError_of_mem_completePrefix hl hx
        · exact isError_of_mem_completePrefix hel hx
      | reference r =>
        simp only [complete, List.mem_append] at hx
        rcases hx with hx | hx | hx
        · exact isError_of_mem_completePrefix hc hx
        · exact isError_of_mem_completePrefix hl hx
        · exact isError_of_mem_completePrefix hel hx
    | int | float | enum | set | string | data | ref | optional => simp [complete] at hx

theorem Arena.isError_of_mem_completeFrom {ids : List FieldId} {a : Arena} {x : Finding}
    (h : x ∈ (a.completeFrom ids).2) : x.isError = false := by
  induction ids generalizing a with
  | nil => simp [completeFrom] at h
  | cons id ids ih =>
    rw [completeFrom, List.mem_append] at h
    rcases h with h | h
    · unfold completeAt at h
      cases hid : a.get? id with
      | none => simp [hid] at h
      | some f =>
        rw [hid] at h
        exact f.isError_of_mem_complete x h
    · exact ih h

namespace Namespace

theorem completeIn_snd (a : Arena) (ns : List Namespace) :
    (completeIn a ns).2 = ns.flatMap fun n => (n.complete a).2 := by
  induction ns with
  | nil => simp [completeIn]
  | cons n ns ih => simp [completeIn, ih]

theorem isError_of_mem_complete {a : Arena} (ns : Namespace) :
    ∀ x ∈ (ns.complete a).2, x.isError = false := by
  have hm {fs : List Field} {x : Finding} (h : x ∈ (completeMembers a fs).2) :
      x.isError = false :=
    isError_of_mem_completeMembers (fun f _ => f.isError_of_mem_complete) h
  induction ns using nested_induction with
  | step ns ih =>
    obtain ⟨name, externalRef, description, fields, interfaces, messages, frames, namespaces⟩ :=
      ns
    intro x hx
    simp only [complete, collect, completeMessage, completeInterface, completeFrame,
      completeIn_snd, List.mem_append, List.mem_flatMap] at hx
    rcases hx with ⟨m, -, hx⟩ | ⟨i, -, hx⟩ | ⟨f, -, l, -, hx⟩ | ⟨n, hn, hx⟩
    · exact hm hx
    · exact hm hx
    · unfold completeLayer at hx
      split at hx
      · exact Field.isError_of_mem_complete _ x hx
      · simp at hx
    · exact ih n hn x hx

end Namespace

/-! ### The steps -/

namespace Schema

variable {s : Schema} {x : Finding}

theorem isError_of_mem_completeFields (h : x ∈ s.completeFields.2) : x.isError = false := by
  rw [completeFields, List.mem_append] at h
  rcases h with h | h
  · exact Arena.isError_of_mem_completeFrom h
  · exact Namespace.isError_of_mem_complete _ x h

theorem cause_of_mem_bindRefs (h : x ∈ s.bindRefs.2) :
    ∃ path, x.cause = .error (.unresolvedReference path) := by
  rw [bindRefs, List.mem_filterMap] at h
  obtain ⟨r, -, h⟩ := h
  unfold unresolved? at h
  split at h
  · simp at h
  · rw [Option.some.injEq] at h
    subst h
    exact ⟨_, rfl⟩

theorem cause_of_mem_resolveIds (h : x ∈ s.resolveIds.2) :
    ∃ name spec, x.cause = .error (.unknownMessageId name spec) := by
  rw [resolveIds_eq, List.mem_filterMap] at h
  obtain ⟨m, -, h⟩ := h
  unfold unknownId? at h
  split at h
  · simp at h
  · rw [Option.some.injEq] at h
    subst h
    exact ⟨_, _, rfl⟩

theorem arena_link (s : Schema) :
    s.link.1.arena = s.bindRefs.1.arena.breakCycles.1.complete.1 := by
  unfold link
  dsimp only
  split_ifs <;> rfl

theorem refs_root_resolveIds (s : Schema) : s.resolveIds.1.root.refs = s.root.refs := by
  have hfields (m : Message) :
      (withNumber (messageId? s.root s.arena) m).fields = m.fields := rfl
  rw [resolveIds_eq]
  exact Namespace.refs_mapMessages hfields s.root

theorem refs_root_link (s : Schema) : s.link.1.root.refs = s.bindRefs.1.root.refs := by
  unfold link
  dsimp only
  split_ifs
  · rw [Namespace.refs_addDefaultInterface, refs_root_resolveIds]
    exact Namespace.refs_complete _ _
  · rw [refs_root_resolveIds]
    exact Namespace.refs_complete _ _

theorem refsAt_arena_link (s : Schema) (i : FieldId) :
    s.link.1.arena.refsAt i = s.bindRefs.1.arena.breakCycles.1.refsAt i := by
  rw [arena_link, Arena.refsAt_complete]

/-- The findings of the steps, one after the other. -/
theorem link_findings (s : Schema) :
    ∃ rest, s.link.2 = s.bindRefs.2 ++ (s.bindRefs.1.arena.breakCycles.2 ++ rest) ∧
      ∀ x ∈ rest, x.isError = false ∨
        ∃ name spec, x.cause = .error (.unknownMessageId name spec) := by
  refine ⟨_, rfl, fun x hx => ?_⟩
  rcases List.mem_append.mp hx with hx | hx
  · exact Or.inl (isError_of_mem_completeFields hx)
  · exact Or.inr (cause_of_mem_resolveIds hx)

/-! ### Cycles -/

theorem exists_reportsCycle_link :
    (∃ x ∈ s.link.2, x.reportsCycle) ↔ ∃ x ∈ s.bindRefs.1.arena.breakCycles.2, x.reportsCycle := by
  obtain ⟨rest, hlink, hrest⟩ := s.link_findings
  rw [hlink]
  constructor
  · rintro ⟨x, hx, hc⟩
    obtain ⟨name, hcause⟩ := Finding.reportsCycle_iff.mp hc
    rcases List.mem_append.mp hx with hx | hx
    · obtain ⟨path, hp⟩ := cause_of_mem_bindRefs hx
      simp [hcause] at hp
    · rcases List.mem_append.mp hx with hx | hx
      · exact ⟨x, hx, hc⟩
      · rcases hrest x hx with h | ⟨name, spec, h⟩
        · simp [Finding.isError, hcause] at h
        · simp [hcause] at h
  · rintro ⟨x, hx, hc⟩
    exact ⟨x, List.mem_append_right _ (List.mem_append_left _ hx), hc⟩

/-- **A linked schema has no cycle of references.** -/
theorem acyclic_link (s : Schema) : s.link.1.arena.Acyclic := by
  rw [arena_link, Arena.acyclic_complete]
  exact Arena.acyclic_breakCycles _

theorem refs_link_of_acyclic (h : s.bindRefs.1.arena.Acyclic) :
    s.link.1.refs = s.bindRefs.1.refs := by
  unfold refs
  rw [refs_root_link, arena_link, Arena.breakCycles_of_acyclic h]
  rw [Arena.flatMap_fields_congr (Arena.map_get?_complete Field.refs_complete _)]

/-- **Linking breaks all cycles of references.** No cycle is left; a cycle is reported if and only
if the references as they were bound had one; a reference is unbound only if it lay on a cycle, and
only in the arena; where there was no cycle, every reference stays as it was bound. -/
theorem link_breaks_cycles (s : Schema) :
    s.link.1.arena.Acyclic ∧
      ((∃ x ∈ s.link.2, x.reportsCycle) ↔ ¬ s.bindRefs.1.arena.Acyclic) ∧
      (∀ i, ∃ change : FieldRef → FieldRef,
        s.link.1.arena.refsAt i = (s.bindRefs.1.arena.refsAt i).map change ∧
          ∀ r, change r = r ∨ ∃ j, r.target = some j ∧ change r = { r with target := none } ∧
            s.bindRefs.1.arena.Edge i j ∧ ReflTransGen s.bindRefs.1.arena.Edge j i) ∧
      s.link.1.root.refs = s.bindRefs.1.root.refs ∧
      (s.bindRefs.1.arena.Acyclic → s.link.1.refs = s.bindRefs.1.refs) := by
  refine ⟨s.acyclic_link, ?_, fun i => ?_, s.refs_root_link, refs_link_of_acyclic⟩
  · rw [exists_reportsCycle_link]
    exact Arena.exists_reportsCycle_breakCycles
  · rw [refsAt_arena_link]
    exact Arena.refsAt_breakCycles _ i

end Schema

end WireSchema
