import WireSchema.Proofs.Schema.Aliases
import WireSchema.Proofs.Schema.Names

/-! # Names of aliases in a checked schema

When aliases are read, their names are compared with those that members have by then. A member that
is a reference without a name takes the name of its target later on, and this name is compared with
those of the other members only. So the aliases of a field have names of their own in a checked
schema, up to the members that were read without a name (`Checked.aliasesApart_iff`). -/

namespace WireSchema

/-- No alias of the field has the name of a member. -/
def Field.AliasesApart (f : Field) : Prop :=
  ∀ other ∈ f.aliases, ∀ m ∈ f.members, m.name ≠ other.name

theorem Field.inner_of_getElem?_members {f m : Field} {k : Nat} (h : f.members[k]? = some m) :
    f.inner[k]? = some m := by
  obtain ⟨core, body⟩ := f
  cases body with
  | bitfield | bundle | variant => exact h
  | _ => simp [members, Field.body, Body.members] at h

theorem walk?_append_singleton {α : Type} {next : α → List α} {x y : α} {path : List Nat}
    (h : walk? next path x = some y) (k : Nat) :
    walk? next (path ++ [k]) x = (next y)[k]? := by
  induction path generalizing x with
  | nil =>
    cases h
    rw [List.nil_append, walk?]
    cases (next y)[k]? <;> rfl
  | cons j path ih =>
    obtain ⟨z, hz, h⟩ := Option.bind_eq_some_iff.mp h
    rw [List.cons_append, walk?, hz, Option.bind_some, ih h]

namespace Schema

/-- No alias of the linked field `g'` has the name of the target of a member that had no name when
the field was read as `g`. -/
def AliasesApartFromTargets (s : Schema) (g g' : Field) : Prop :=
  ∀ (k : Nat) (m m' : Field), g.members[k]? = some m → g'.members[k]? = some m' → m.name = "" →
    ∀ t, m'.ref?.bind s.arena.target? = some t → ∀ other ∈ g'.aliases, t.name ≠ other.name

variable {s : Schema} {p : Place} {g g' m m' : Field} {k : Nat}

/-! ### Members -/

/-- The place of the field that is inside of the one at the place, at position `k`. -/
def Place.inner (p : Place) (k : Nat) : Place := ⟨p.site, p.path ++ [k]⟩

theorem fieldAt?_inner (hg : s.fieldAt? p = some g) (hm : g.members[k]? = some m) :
    s.fieldAt? (p.inner k) = some m := by
  obtain ⟨top, htop, hpath⟩ := Option.bind_eq_some_iff.mp hg
  rw [fieldAt?, Place.inner, htop, Option.bind_some, Field.at?, walk?_append_singleton hpath]
  exact Field.inner_of_getElem?_members hm

/-- The members of a linked field are those that were read, one by one. -/
theorem exists_getElem?_members_of_link (hg : s.fieldAt? p = some g)
    (hg' : s.link.1.fieldAt? p = some g') (hm' : g'.members[k]? = some m') :
    ∃ m, g.members[k]? = some m := by
  obtain ⟨change, rfl⟩ := eq_complete_of_fieldAt? hg hg'
  rw [Field.members_complete, Field.members_mapRefs, List.map_map, List.getElem?_map] at hm'
  obtain ⟨m, hm, -⟩ := Option.map_eq_some_iff.mp hm'
  exact ⟨m, hm⟩

/-! ### Names -/

section
variable (hg : s.fieldAt? p = some g) (hg' : s.link.1.fieldAt? p = some g')

include hg hg'

theorem Built.nodup_aliases_link (hs : s.Built) : (g'.aliases.map Alias.name).Nodup := by
  have hread := (hs.aliasesRead (contains_iff_exists_fieldAt?.mpr ⟨p, hg⟩)).nodup
  rw [aliases_link hg hg']
  exact hread.sublist (List.filter_sublist.map Alias.name)

variable (hm : g.members[k]? = some m) (hm' : g'.members[k]? = some m')

include hm hm'

/-- A member that was read with a name keeps it, and no alias has it. -/
theorem Built.name_of_named_member (hs : s.Built) (hne : m.name ≠ "") :
    m'.name = m.name ∧ ∀ other ∈ g'.aliases, m'.name ≠ other.name := by
  have hname : m'.name = m.name :=
    name_fieldAt?_link_of_ne (fieldAt?_inner hg hm) (fieldAt?_inner hg' hm') hne
  refine ⟨hname, fun other hother => ?_⟩
  have hread := hs.aliasesRead (contains_iff_exists_fieldAt?.mpr ⟨p, hg⟩)
  rw [aliases_link hg hg'] at hother
  rw [hname]
  exact hread.fresh other (List.mem_of_mem_filter hother) m (List.mem_of_getElem? hm)

/-- A member that was read without a name has that of its target. -/
theorem Checked.name_of_nameless_member (hs : s.link.1.Checked) (hbuilt : s.Built)
    (hempty : m.name = "") :
    ∃ t, m'.ref?.bind s.link.1.arena.target? = some t ∧ m'.name = t.name := by
  obtain ⟨r, t, href, htarget, hname⟩ := hs.exists_target_of_nameless hbuilt
    (fieldAt?_inner hg hm) (fieldAt?_inner hg' hm') hempty
  exact ⟨t, by rw [href, Option.bind_some, htarget], hname⟩

omit hm hm'

/-- **The aliases of a checked field have other names than its members** if and only if none has the
name of the target of a member that was read without a name. -/
theorem Checked.aliasesApart_iff (hs : s.link.1.Checked) (hbuilt : s.Built) :
    g'.AliasesApart ↔ s.link.1.AliasesApartFromTargets g g' := by
  constructor
  · intro hapart k m m' hm hm' hempty t ht other hother
    obtain ⟨t', ht', hname⟩ := hs.name_of_nameless_member hg hg' hm hm' hbuilt hempty
    obtain rfl : t' = t := Option.some.inj (ht'.symm.trans ht)
    rw [← hname]
    exact hapart other hother m' (List.mem_of_getElem? hm')
  · intro hnameless other hother m' hmem
    obtain ⟨k, hm'⟩ := List.mem_iff_getElem?.mp hmem
    obtain ⟨m, hm⟩ := exists_getElem?_members_of_link hg hg' hm'
    by_cases hempty : m.name = ""
    · obtain ⟨t, ht, hname⟩ := hs.name_of_nameless_member hg hg' hm hm' hbuilt hempty
      rw [hname]
      exact hnameless k m m' hm hm' hempty t ht other hother
    · exact (hbuilt.name_of_named_member hg hg' hm hm' hempty).2 other hother

end

end Schema

end WireSchema
