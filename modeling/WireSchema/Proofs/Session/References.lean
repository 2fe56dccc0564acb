import WireSchema.Proofs.Schema.Binding
import WireSchema.Proofs.Session.Run

/-! # The references of a checked schema

If the check of a session succeeds, every reference of its schema leads to the field that has its
path. If it does not, references that name no field are reported, and no other field takes the place
of the one that is missing. -/

namespace WireSchema.Session

open Markup

/-- **References lead to the fields that have their paths.** After a check that succeeds, every
reference of the schema does so, at any depth. In every linked schema a bound reference leads to the
field with its path and to no other one, and each reference that names no field is reported once. -/
theorem references_lead_to_their_paths :
    (∀ config calls, (after config calls).validate.2 = true →
      ∃ schema : Schema, (after config calls).validate.1.schema = some schema ∧
        ∀ r, schema.HasRef r → ∃ id f, r.target = some id ∧ schema.arena.get? id = some f ∧
          f.externalRef = r.path) ∧
    (∀ s : Schema, s.Built →
      (∀ r id, s.link.1.HasRef r → r.target = some id → ∀ i,
        i = id ↔ ∃ f, s.link.1.arena.get? i = some f ∧ f.externalRef = r.path) ∧
      s.link.2.filter Finding.reportsUnresolved =
        (s.link.1.refs.filter fun r => !s.link.1.arena.hasPath r.path).map fun r =>
          ⟨r.line, .error (.unresolvedReference r.path)⟩) := by
  refine ⟨fun config calls hok => ?_, fun s hs => ⟨fun r id hr ht => ?_, ?_⟩⟩
  · obtain ⟨s, hs, hschema, hclean⟩ := (reachable_after config calls).exists_linked hok
    refine ⟨s.link.1, hschema, fun r hr => ?_⟩
    exact Schema.exists_target_of_link hs.indexed hclean (Schema.mem_refs_iff.mpr hr)
  · exact Schema.eq_target_iff hs.indexed (Schema.mem_refs_iff.mpr hr) ht
  · exact Schema.unresolved_link hs.indexed

/-- A document with a field, a bundle that refers to it, and a message with a list of bundles. -/
def bundleDocument : Element :=
  ⟨"schema", [("name", "P")],
    [⟨"int", [("name", "A"), ("type", "uint8")], [], "", 1⟩,
      ⟨"ns", [("name", "N")],
        [⟨"bundle", [("name", "B")], [⟨"ref", [("name", "X"), ("field", "A")], [], "", 3⟩],
            "", 3⟩,
          ⟨"message", [("name", "M"), ("id", "1")],
            [⟨"list", [("name", "L"), ("element", "N.B"), ("countPrefix", "A")], [], "", 4⟩],
            "", 4⟩],
        "", 2⟩],
    "", 1⟩

/-- A session that has taken `bundleDocument`. -/
def bundleSession : Session := after ⟨none, 0, none, false⟩ [.element bundleDocument]

/-- The check of `bundleDocument` succeeds, and its references lead to their fields. -/
theorem references_of_bundleDocument :
    bundleSession.validate.2 = true ∧
    (∃ schema : Schema, bundleSession.validate.1.schema = some schema ∧
      ∀ r, schema.HasRef r → ∃ id f, r.target = some id ∧ schema.arena.get? id = some f ∧
        f.externalRef = r.path) ∧
    ∃ s : Schema, s.Built ∧ bundleSession.schema = some s ∧
      (∀ r id, s.link.1.HasRef r → r.target = some id → ∀ i,
        i = id ↔ ∃ f, s.link.1.arena.get? i = some f ∧ f.externalRef = r.path) := by
  have hok : bundleSession.validate.2 = true := by decide +kernel
  refine ⟨hok, references_lead_to_their_paths.1 _ _ hok, ?_⟩
  have hsome : bundleSession.schema.isSome = true := by decide +kernel
  obtain ⟨s, hs⟩ := Option.isSome_iff_exists.mp hsome
  have hbuilt : s.Built := (reachable_after _ _).built (by decide +kernel) s hs
  exact ⟨s, hbuilt, hs, (references_lead_to_their_paths.2 s hbuilt).1⟩

end WireSchema.Session
