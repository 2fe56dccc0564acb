import WireSchema.Proofs.Schema.Aliases
import WireSchema.Proofs.Session.Validation

/-! # The aliases of a checked schema

After a check that succeeds, each alias that is left leads to a member of the linked schema. Those
that are dropped led to none when it was the turn of their bundle or variant. They may lead to a
member in the end, if a reference in a field that comes later has no name of its own
(`aliases_lead_to_members`). -/

namespace WireSchema.Session

open Markup Schema

/-- **Aliases lead to members.** After a check that succeeds, each bundle and variant, at any depth,
has those of its aliases that led to a member in what its site saw. Each of them leads to a member
in the linked schema. They are all that do so if and only if none led to a member in the end only.
This is so for fields that are not in the arena, and for those in it that come after every field
with a nameless reference. -/
theorem aliases_lead_to_members (config : Config) (calls : List Call) (s : Schema)
    (hcalls : Call.validate ∉ calls) (hs : (after config calls).schema = some s)
    (hok : (after config calls).validate.2 = true) :
    (after config calls).validate.1.schema = some s.link.1 ∧
    (∀ g', s.link.1.Contains g' →
      ∃ p g, s.fieldAt? p = some g ∧ s.link.1.fieldAt? p = some g') ∧
    ∀ p g g', s.fieldAt? p = some g → s.link.1.fieldAt? p = some g' →
      g'.aliases = g.aliases.filter (·.leads (s.seenFrom p.site) g') ∧
      (∀ other ∈ g'.aliases, other.leads s.link.1.arena g' = true) ∧
      (g'.aliases = g.aliases.filter (·.leads s.link.1.arena g') ↔
        ∀ other ∈ g.aliases, other.leads s.link.1.arena g' = true →
          other.leads (s.seenFrom p.site) g' = true) ∧
      ((∀ j f, p.site.IsBefore j → s.arena.get? j = some f → f.Named) →
        g'.aliases = g.aliases.filter (·.leads s.link.1.arena g')) := by
  have hnone : (after config calls).validated = none := validated_run hcalls
  have hbuilt : s.Built := (reachable_after config calls).built hnone s hs
  obtain ⟨schema, hschema, hlinked, dependent, hcheck⟩ := checked_of_validate hnone hok
  obtain rfl : s = schema := Option.some.inj (hs.symm.trans hschema)
  refine ⟨hlinked, fun g' => exists_fieldAt?_of_contains_link, fun p g g' hg hg' => ?_⟩
  have hkept := aliases_link hg hg'
  have hin {other : Alias} (h : other ∈ g.aliases) := leads_link hbuilt hcheck hg hg' h
  have hiff : g'.aliases = g.aliases.filter (·.leads s.link.1.arena g') ↔
      ∀ other ∈ g.aliases, other.leads s.link.1.arena g' = true →
        other.leads (s.seenFrom p.site) g' = true := by
    rw [hkept]
    constructor
    · intro heq other hother hleads
      have hmem := heq ▸ List.mem_filter.mpr ⟨hother, hleads⟩
      exact (List.mem_filter.mp hmem).2
    · intro hall
      exact List.filter_congr fun other hother =>
        Bool.eq_iff_iff.mpr ⟨hin hother, hall other hother⟩
  refine ⟨hkept, fun other hother => ?_, hiff, fun hnamed => ?_⟩
  · rw [hkept] at hother
    obtain ⟨hother, hleads⟩ := List.mem_filter.mp hother
    exact hin hother hleads
  · exact hiff.mpr fun other hother => leads_seenFrom hbuilt hg hg' hother hnamed

/-- A bundle with an alias for a member of a reference, which has no name of its own. -/
def aliasBundle : Element :=
  ⟨"bundle", [("name", "A")],
    [⟨"ref", [("name", "b"), ("field", "B")], [], "", 3⟩,
      ⟨"alias", [("name", "t"), ("field", "b.T")], [], "", 4⟩],
    "", 3⟩

/-- The bundle that has the member. -/
def memberBundle : Element :=
  ⟨"bundle", [("name", "B")], [⟨"ref", [("field", "T")], [], "", 5⟩], "", 5⟩

/-- A session with the two bundles and a field for the reference, in this order. -/
def aliasSession (first second : Element) : Session :=
  after ⟨none, 0, none, false⟩
    [.element ⟨"schema", [("name", "P")],
      [⟨"int", [("name", "T"), ("type", "uint8")], [], "", 2⟩, first, second], "", 1⟩]

/-- At a place of the arena, the aliases that are read, those that are kept, and those that lead to
a member in the linked schema, each by its name. -/
def aliasesAt? (s : Schema) (i : FieldId) : Option (List String × List String × List String) :=
  (s.fieldAt? ⟨.arena i, []⟩).bind fun g => (s.link.1.fieldAt? ⟨.arena i, []⟩).map fun g' =>
    (g.aliases.map (·.name), g'.aliases.map (·.name),
      (g.aliases.filter (·.leads s.link.1.arena g')).map (·.name))

/-- If the bundle with the alias comes last, all of its aliases that lead to a member are kept. -/
theorem aliases_of_memberBundle_first :
    ∃ s g g', (aliasSession memberBundle aliasBundle).schema = some s ∧
      s.fieldAt? ⟨.arena 2, []⟩ = some g ∧ s.link.1.fieldAt? ⟨.arena 2, []⟩ = some g' ∧
      g'.aliases.map (·.name) = ["t"] ∧
      g'.aliases = g.aliases.filter (·.leads s.link.1.arena g') := by
  have heval : ((aliasSession memberBundle aliasBundle).schema.bind fun s =>
      (aliasesAt? s 2).map fun names => (names, s.arena.size)) =
      some ((["t"], ["t"], ["t"]), 3) := by decide +kernel
  simp only [aliasesAt?, Option.bind_eq_some_iff, Option.map_eq_some_iff] at heval
  obtain ⟨s, hs, _, ⟨g, hg, g', hg', rfl⟩, hnames⟩ := heval
  simp only [Prod.mk.injEq] at hnames
  obtain ⟨⟨-, hkept, -⟩, hsize⟩ := hnames
  obtain ⟨-, -, hplaces⟩ := aliases_lead_to_members _ _ s (by simp) hs (by decide +kernel)
  refine ⟨s, g, g', hs, hg, hg', hkept, (hplaces _ g g' hg hg').2.2.2 fun j f hj hf => ?_⟩
  have hlt := Arena.lt_size_of_get? hf
  rw [hsize] at hlt
  exact absurd hj (Nat.not_lt.mpr (Nat.le_of_lt_succ hlt))

/-- If the bundle with the alias comes first, the check drops the alias, although it leads to a
member in the linked schema. -/
theorem aliases_of_aliasBundle_first :
    ∃ s g g', (aliasSession aliasBundle memberBundle).schema = some s ∧
      (aliasSession aliasBundle memberBundle).validate.2 = true ∧
      s.fieldAt? ⟨.arena 1, []⟩ = some g ∧ s.link.1.fieldAt? ⟨.arena 1, []⟩ = some g' ∧
      g'.aliases = [] ∧
      (g.aliases.filter (·.leads s.link.1.arena g')).map (·.name) = ["t"] ∧
      g'.aliases ≠ g.aliases.filter (·.leads s.link.1.arena g') := by
  have heval : ((aliasSession aliasBundle memberBundle).schema.bind fun s => aliasesAt? s 1) =
      some (["t"], [], ["t"]) := by decide +kernel
  simp only [aliasesAt?, Option.bind_eq_some_iff, Option.map_eq_some_iff, Prod.mk.injEq] at heval
  obtain ⟨s, hs, g, hg, g', hg', -, hkept, hleads⟩ := heval
  have hnil := List.map_eq_nil_iff.mp hkept
  refine ⟨s, g, g', hs, by decide +kernel, hg, hg', hnil, hleads, fun heq => ?_⟩
  rw [← heq, hnil] at hleads
  cases hleads

end WireSchema.Session
