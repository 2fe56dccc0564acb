import WireSchema.Proofs.Cycle.Following
import WireSchema.Proofs.Schema.Binding
import WireSchema.Proofs.Session.Run

/-! # Following references in a linked schema

A linked schema has no cycle of references, so that whatever follows them comes to an end
(`following_references_ends`): asking for lengths, and resolving a field. -/

namespace WireSchema.Schema

open Relation Markup

variable {s : Schema} {f g : Field}

theorem HasRef.of_contains {r : FieldRef} (h : s.Contains f) (hr : r ∈ f.ownRefs) : s.HasRef r := by
  obtain ⟨g, hg, hf⟩ := h
  exact Or.inl ⟨g, hg, f, hf, hr⟩

theorem Contains.of_target {r : FieldRef} (h : s.arena.target? r = some g) : s.Contains g := by
  obtain ⟨j, -, hj⟩ := Option.bind_eq_some_iff.mp h
  exact ⟨g, Or.inl ⟨j, hj⟩, ReflTransGen.refl⟩

theorem Contains.of_refers (h : s.arena.Refers f g) : s.Contains g := by
  obtain ⟨target, bitLength, -, ht⟩ := h
  exact .of_target ht

theorem Contains.of_reflTransGen (h : s.Contains f) (hg : ReflTransGen s.arena.Refers f g) :
    s.Contains g := by
  cases hg with
  | refl => exact h
  | tail _ href => exact .of_refers href

/-- In a linked schema a `ref` field leads to no field only if it is not bound. -/
theorem dangling_iff (hs : s.Indexed) (h : s.link.1.Contains f) :
    s.link.1.arena.Dangling f ↔
      ∃ target bitLength, f.body = .ref target bitLength ∧ target.target = none := by
  unfold Arena.Dangling
  refine exists_congr fun target => exists_congr fun bitLength => and_congr_right fun hbody => ?_
  unfold Arena.target?
  cases ht : target.target with
  | none => simp
  | some id =>
    have hmem : target ∈ f.ownRefs := by
      rw [Field.ownRefs, hbody]
      simp [Body.ownRefs]
    obtain ⟨t, hget, -⟩ :=
      (eq_target_iff hs (mem_refs_iff.mpr (.of_contains h hmem)) ht id).mp rfl
    simp [hget]

/-- **If linking finds no error, following references leads from every field to one with a form on
the wire.** -/
theorem exists_resolved_of_link (hs : s.Indexed) (hclean : ∀ x ∈ s.link.2, x.isError = false)
    (hf : s.link.1.Contains f) : ∃ t, s.link.1.arena.resolved f = some t := by
  rw [← Option.ne_none_iff_exists', ne_eq, Arena.resolved_eq_none_iff s.acyclic_link]
  rintro ⟨g, hg, hdangling⟩
  have hcontains := hf.of_reflTransGen hg
  obtain ⟨target, bitLength, hbody, hnone⟩ := (dangling_iff hs hcontains).mp hdangling
  have hmem : target ∈ g.ownRefs := by
    rw [Field.ownRefs, hbody]
    exact List.mem_singleton_self target
  obtain ⟨id, _, hsome, -⟩ :=
    exists_target_of_link hs hclean (mem_refs_iff.mpr (.of_contains hcontains hmem))
  rw [hnone] at hsome
  cases hsome

/-- **Following references ends in every linked schema**, for each of its fields at any depth. No
field asks for others without end; so the lengths are those that the recursion without a bound
gives, and a field is unresolved just when following references leads to one that is not bound. -/
theorem following_references_ends (s : Schema) (hs : s.Built) (f : Field)
    (hf : s.link.1.Contains f) :
    Acc (fun g f => s.link.1.arena.Asks f g) f ∧
      (s.link.1.arena.minLength f = f.minLengthVia fun r =>
        ((s.link.1.arena.target? r).map s.link.1.arena.minLength).getD 0) ∧
      (s.link.1.arena.maxLength f = f.maxLengthVia s.link.1.arena fun r =>
        ((s.link.1.arena.target? r).map s.link.1.arena.maxLength).getD unbounded) ∧
      (s.link.1.arena.resolved f = none ↔ ∃ g, ReflTransGen s.link.1.arena.Refers f g ∧
        ∃ target bitLength, g.body = .ref target bitLength ∧ target.target = none) := by
  have hac := s.acyclic_link
  refine ⟨Arena.acc_asks hac f, Arena.minLength_eq hac f, Arena.maxLength_eq hac f, ?_⟩
  rw [Arena.resolved_eq_none_iff hac]
  exact exists_congr fun g => and_congr_right fun hg =>
    dangling_iff hs.indexed (hf.of_reflTransGen hg)

/-- A document with two fields that refer to each other. -/
def cyclicDocument : Element :=
  ⟨"schema", [("name", "P")],
    [⟨"ref", [("name", "A"), ("field", "B")], [], "", 2⟩,
      ⟨"ref", [("name", "B"), ("field", "A")], [], "", 3⟩],
    "", 1⟩

/-- `cyclicDocument` makes a schema with a cycle; following references ends in it all the same. -/
theorem following_references_ends_cyclicDocument :
    ∃ s : Schema, s.Built ∧ (∃ x ∈ s.link.2, x.reportsCycle) ∧ ∃ f, s.link.1.Contains f ∧
      Acc (fun g f => s.link.1.arena.Asks f g) f ∧
      (s.link.1.arena.minLength f = f.minLengthVia fun r =>
        ((s.link.1.arena.target? r).map s.link.1.arena.minLength).getD 0) ∧
      (s.link.1.arena.maxLength f = f.maxLengthVia s.link.1.arena fun r =>
        ((s.link.1.arena.target? r).map s.link.1.arena.maxLength).getD unbounded) ∧
      (s.link.1.arena.resolved f = none ↔ ∃ g, ReflTransGen s.link.1.arena.Refers f g ∧
        ∃ target bitLength, g.body = .ref target bitLength ∧ target.target = none) := by
  have heval : (Session.after ⟨none, 0, none, false⟩ [.element cyclicDocument]).schema.any
      (fun s => s.link.2.any Finding.reportsCycle && (s.link.1.arena.get? 0).isSome) = true := by
    decide +kernel
  cases hs : (Session.after ⟨none, 0, none, false⟩ [.element cyclicDocument]).schema with
  | none => simp [hs] at heval
  | some s =>
    rw [hs, Option.any_some, Bool.and_eq_true, List.any_eq_true] at heval
    obtain ⟨hcycle, hsome⟩ := heval
    obtain ⟨f, hf⟩ := Option.isSome_iff_exists.mp hsome
    have hbuilt : s.Built := (Session.reachable_after _ _).built (by decide +kernel) s hs
    have hcontains : s.link.1.Contains f := ⟨f, Or.inl ⟨0, hf⟩, ReflTransGen.refl⟩
    exact ⟨s, hbuilt, hcycle, f, hcontains, following_references_ends s hbuilt f hcontains⟩

end WireSchema.Schema
