import WireSchema.Proofs.Schema.AliasNames

/-! # Names of aliases in a session

The aliases of a field are compared with its members when they are read, and not again when members
have taken the names of their targets. So an alias may have the name of a member in a schema that
passed its check, but only that of a member that was declared without a name
(`aliases_have_names_of_their_own`). -/

namespace WireSchema.Session

open Markup Schema

/-- **Aliases have names of their own, up to members without a name.** After a check that succeeds,
the aliases of each bundle and variant, at any depth, have different names. None has the name of a
member that was declared with one. A member that was declared without a name has that of its target;
so no alias has the name of a member if and only if none has that of such a target. -/
theorem aliases_have_names_of_their_own (config : Config) (calls : List Call)
    (hok : (after config calls).validate.2 = true) :
    ∃ s : Schema, s.Built ∧ (after config calls).validate.1.schema = some s.link.1 ∧
      ((after config calls).validated = none → (after config calls).schema = some s) ∧
      (∀ g', s.link.1.Contains g' →
        ∃ p g, s.fieldAt? p = some g ∧ s.link.1.fieldAt? p = some g') ∧
      ∀ p g g', s.fieldAt? p = some g → s.link.1.fieldAt? p = some g' →
        (g'.aliases.map Alias.name).Nodup ∧
        (∀ (k : Nat) (m m' : Field), g.members[k]? = some m → g'.members[k]? = some m' →
          (m.name ≠ "" → m'.name = m.name ∧ ∀ other ∈ g'.aliases, m'.name ≠ other.name) ∧
          (m.name = "" → ∃ t, m'.ref?.bind s.link.1.arena.target? = some t ∧ m'.name = t.name)) ∧
        (g'.AliasesApart ↔ s.link.1.AliasesApartFromTargets g g') := by
  obtain ⟨s, hbuilt, hchecked, hlinked, hread⟩ := (reachable_after config calls).exists_built hok
  refine ⟨s, hbuilt, hlinked, hread, fun g' => exists_fieldAt?_of_contains_link,
    fun p g g' hg hg' => ⟨hbuilt.nodup_aliases_link hg hg', fun k m m' hm hm' => ⟨?_, ?_⟩,
      hchecked.aliasesApart_iff hg hg' hbuilt⟩⟩
  · exact hbuilt.name_of_named_member hg hg' hm hm'
  · exact hchecked.name_of_nameless_member hg hg' hm hm' hbuilt

/-- A session that has taken a document with a bundle of a reference without a name and an integer,
and with an alias of this name for the integer. -/
def shadowSession (name : String) : Session :=
  after ⟨none, 0, none, false⟩
    [.element ⟨"schema", [("name", "P")],
      [⟨"int", [("name", "T"), ("type", "uint8")], [], "", 2⟩,
        ⟨"bundle", [("name", "B")],
          [⟨"ref", [("field", "T")], [], "", 4⟩,
            ⟨"int", [("name", "y"), ("type", "uint8")], [], "", 5⟩,
            ⟨"alias", [("name", name), ("field", "y")], [], "", 6⟩], "", 3⟩], "", 1⟩]

/-- The names of the members of the bundle as they are read and as they are linked, and those of its
aliases. -/
def bundleNames? (s : Schema) : Option (List String × List String × List String) :=
  (s.fieldAt? ⟨.arena 1, []⟩).bind fun g => (s.link.1.fieldAt? ⟨.arena 1, []⟩).map fun g' =>
    (g.members.map Field.name, g'.members.map Field.name, g'.aliases.map Alias.name)

/-- An alias with another name than the target of the reference has a name of its own. -/
theorem names_of_bundle_with_alias :
    (shadowSession "u").validate.2 = true ∧
    ∃ s g g', (shadowSession "u").schema = some s ∧
      (shadowSession "u").validate.1.schema = some s.link.1 ∧
      s.fieldAt? ⟨.arena 1, []⟩ = some g ∧ s.link.1.fieldAt? ⟨.arena 1, []⟩ = some g' ∧
      g'.aliases.map Alias.name = ["u"] ∧ g'.AliasesApart ∧
      s.link.1.AliasesApartFromTargets g g' := by
  have hok : (shadowSession "u").validate.2 = true := by decide +kernel
  have hnone : (shadowSession "u").validated = none := by decide +kernel
  have heval : (shadowSession "u").schema.bind bundleNames? =
      some (["", "y"], ["T", "y"], ["u"]) := by decide +kernel
  refine ⟨hok, ?_⟩
  obtain ⟨s, -, hlinked, hread, -, hplaces⟩ := aliases_have_names_of_their_own _ _ hok
  have hs := hread hnone
  change (shadowSession "u").schema = some s at hs
  rw [hs, Option.bind_some, bundleNames?] at heval
  obtain ⟨g, hg, heval⟩ := Option.bind_eq_some_iff.mp heval
  obtain ⟨g', hg', heval⟩ := Option.map_eq_some_iff.mp heval
  rw [Prod.mk.injEq, Prod.mk.injEq] at heval
  obtain ⟨-, hmembers, haliases⟩ := heval
  have hapart : g'.AliasesApart := by
    intro other hother m hm
    have hname := List.mem_map_of_mem (f := Alias.name) hother
    have hmember := List.mem_map_of_mem (f := Field.name) hm
    rw [haliases, List.mem_singleton] at hname
    rw [hmembers] at hmember
    rw [hname]
    rintro heq
    rw [heq] at hmember
    simp at hmember
  exact ⟨s, g, g', hs, hlinked, hg, hg', haliases, hapart,
    (hplaces _ g g' hg hg').2.2.mp hapart⟩

/-- An alias with the name of the target has that of the member which takes it. The check succeeds
all the same. -/
theorem names_of_bundle_with_shadowing_alias :
    (shadowSession "T").validate.2 = true ∧
    ∃ s g, (shadowSession "T").validate.1.schema = some s ∧ s.Contains g ∧ ∃ other ∈ g.aliases,
      ∃ m ∈ g.members, m.name = other.name := by
  have heval : ((shadowSession "T").validate.1.schema.bind fun s =>
      (s.fieldAt? ⟨.arena 1, []⟩).map fun g =>
        (g.members.map Field.name, g.aliases.map Alias.name)) =
      some (["T", "y"], ["T"]) := by decide +kernel
  obtain ⟨s, hs, heval⟩ := Option.bind_eq_some_iff.mp heval
  obtain ⟨g, hg, heval⟩ := Option.map_eq_some_iff.mp heval
  rw [Prod.mk.injEq] at heval
  obtain ⟨hmembers, haliases⟩ := heval
  obtain ⟨other, hother, hname⟩ := List.mem_map.mp (haliases ▸ List.mem_singleton_self "T")
  have hmem : "T" ∈ g.members.map Field.name := hmembers ▸ List.mem_cons_self
  obtain ⟨m, hm, hmember⟩ := List.mem_map.mp hmem
  have hcontains : s.Contains g := contains_iff_exists_fieldAt?.mpr ⟨_, hg⟩
  exact ⟨by decide +kernel, s, g, hs, hcontains, other, hother, m, hm, hmember.trans hname.symm⟩

end WireSchema.Session
