import WireSchema.Proofs.Schema.Kinds
import WireSchema.Proofs.Schema.Naming

/-! # Names in a checked schema

A field is read with a name, unless it is a reference that is not declared in a namespace
(`yields_nameGiven_readMerged`). Linking leaves a name as it is, and gives a bound reference without
one that of its target (`Built.name_fieldAt?_link`). So all fields have names if linking finds no
error (`Checked.isName`). The checks see to it that fields that stand side by side have different
ones (`Checked.wellNamed`). -/

namespace WireSchema

open Markup Relation

/-! ### Names that are read -/

/-- The field has a name, or it is a reference that was declared without one. -/
def Field.NameGiven (f : Field) : Prop :=
  Literal.isName f.name = true ∨ f.name = "" ∧ ∃ r, f.ref? = some r

theorem yields_nameGiven_readMerged (ctx : Context) (nested : NestedReader) (pos : Position)
    (e : Element) : (readMerged ctx nested pos e).Yields Field.NameGiven := by
  intro f hf
  obtain ⟨kind, hkind, hcore, hbody, -⟩ := readMerged_eq_ok.mp hf
  obtain ⟨⟨-, hname⟩ | ⟨-, htag, -, hempty⟩, -⟩ := readCore_eq_ok.mp hcore
  · exact Or.inl hname
  · have hgives : nested.GivesIn f.core.window fun _ => True := fun _ _ _ _ _ => trivial
    have hbody : f.kind = kind := (yields_inner_readBody hgives kind _ hbody).1
    have href : kind = .ref := by
      rw [htag] at hkind
      cases hkind
      rfl
    have hsome : f.ref? ≠ none := Field.kind_eq_ref_iff.mp (hbody.trans href)
    exact Or.inr ⟨hempty, Option.ne_none_iff_exists'.mp hsome⟩

/-- The last name of the path of a field is its own. -/
def Field.PathEnds (f : Field) : Prop :=
  ∃ scope : List String, Literal.segments f.externalRef = scope ++ [f.name]

theorem yields_pathEnds_readMerged (ctx : Context) (nested : NestedReader) (e : Element) :
    (readMerged ctx nested .inNamespace e).Yields Field.PathEnds := by
  intro f hf
  obtain ⟨hname, hpath⟩ := core_of_readMerged hf
  refine ⟨Literal.scopeSegments ctx.scope, ?_⟩
  rw [hpath]
  exact Literal.segments_qualify hname

namespace Schema

variable {s : Schema} {g g' t t' : Field} {p : Place} {id : FieldId} {n : Namespace}

theorem Built.nameGiven (hs : s.Built) (hg : s.Contains g) : g.NameGiven :=
  hs.forall_contains yields_nameGiven_readMerged hg

theorem Built.isName_arena (hs : s.Built) (h : s.arena.get? id = some t) :
    Literal.isName t.name = true :=
  hs.forall_arena (P := fun f => Literal.isName f.name = true)
    (fun _ _ _ _ _ hf => (core_of_readMerged hf).1) id t h

/-! ### Names in the linked schema -/

theorem exists_get?_of_link (ht' : s.link.1.arena.get? id = some t') :
    ∃ t, s.arena.get? id = some t ∧ t.externalRef = t'.externalRef := by
  have hsame := s.externalRef_link id
  rw [ht'] at hsame
  exact Option.map_eq_some_iff.mp hsame.symm

theorem Built.isName_arena_link (hs : s.Built) (ht' : s.link.1.arena.get? id = some t') :
    Literal.isName t'.name = true := by
  obtain ⟨t, ht, -⟩ := exists_get?_of_link ht'
  rw [hs.name_link ht ht']
  exact hs.isName_arena ht

/-- Linking changes no name that a field has. -/
theorem name_fieldAt?_link_of_ne (hg : s.fieldAt? p = some g)
    (hg' : s.link.1.fieldAt? p = some g') (hne : g.name ≠ "") : g'.name = g.name := by
  obtain ⟨change, rfl⟩ := eq_complete_of_fieldAt? hg hg'
  have hname : (g.mapRefs change).name = g.name := by rw [Field.name, Field.core_mapRefs]; rfl
  rw [Field.name_complete_of_ne (by rwa [hname]), hname]

/-- Linking gives a bound reference without a name that of its target. -/
theorem Built.name_fieldAt?_link (hs : s.Built) (hg : s.fieldAt? p = some g)
    (hg' : s.link.1.fieldAt? p = some g') {r : FieldRef} (href : g'.ref? = some r)
    (htarget : s.link.1.arena.target? r = some t') (hempty : g.name = "") :
    g'.name = t'.name := by
  obtain ⟨bitLength, hbody⟩ := Field.ref?_eq_some.mp href
  obtain ⟨id, hid, ht'⟩ := Option.bind_eq_some_iff.mp htarget
  obtain ⟨t, ht, -⟩ := exists_get?_of_link ht'
  obtain ⟨u, hu, hname, -⟩ := hs.exists_seen hg hg' (Field.mem_refs_of_ref? href) hid ht ht'
  have hcore : g'.core = g.core.nameAfter (some u) := by
    rw [core_of_ref_link hg hg' hbody, Arena.target?, hid, Option.bind_some, hu]
  rw [Field.name, hcore, ← hname]
  exact if_pos (by simpa [Field.name] using hempty)

/-- **Each place of the arena is listed under the name of its field.** -/
theorem Built.name_listed_link (hs : s.Built) (hn : n.Within s.link.1.root)
    {entry : String × FieldId} (hentry : entry ∈ n.fields) :
    (s.link.1.arena.get? entry.2).map Field.name = some entry.1 := by
  obtain ⟨hkey, f', hf', hpath⟩ := (hs.indexed.link.orderly n hn).field entry hentry
  rw [hf', Option.map_some, Option.some.injEq]
  obtain ⟨f, hf, hsame⟩ := exists_get?_of_link hf'
  have hends : f.PathEnds := hs.forall_arena
    (fun ctx levels e _ => yields_pathEnds_readMerged ctx (readField ctx levels) e) _ f hf
  obtain ⟨scope, hsegments⟩ := hends
  rw [hsame, hpath, Literal.segments_qualify hkey] at hsegments
  rw [hs.name_link hf hf']
  exact (List.append_singleton_inj.mp hsegments).2.symm

/-! ### Checked schemas -/

/-- The fields that a namespace lists. -/
def ownFields (s : Schema) (n : Namespace) : List Field :=
  n.fields.filterMap fun entry => s.arena.get? entry.2

/-- All fields have names, and those that stand side by side have different ones. A name is an
identifier and not empty (`Literal.isName`). -/
structure WellNamed (s : Schema) : Prop where
  /-- Every field has a name, at any depth. -/
  name : ∀ f, s.Contains f → f.name ≠ "" ∧ Literal.isName f.name = true
  /-- The members of a field have different names. -/
  members : ∀ f, s.Contains f → (f.members.map Field.name).Nodup
  /-- The fields of a message have different names. -/
  message : ∀ n : Namespace, n.Within s.root → ∀ m ∈ n.messages, (m.fields.map Field.name).Nodup
  /-- The fields of an interface have different names. -/
  interface : ∀ n : Namespace, n.Within s.root →
    ∀ i ∈ n.interfaces, (i.fields.map Field.name).Nodup
  /-- The fields of a namespace are listed under their names, which are different. -/
  listed : ∀ n : Namespace, n.Within s.root →
    (s.ownFields n).map Field.name = n.fields.map Prod.fst ∧
      ((s.ownFields n).map Field.name).Nodup

namespace Checked

/-- A field that was read without a name is a reference, and has the name of its target. -/
theorem exists_target_of_nameless {built : Schema} (hs : built.link.1.Checked)
    (hbuilt : built.Built) (hg : built.fieldAt? p = some g)
    (hg' : built.link.1.fieldAt? p = some g') (hempty : g.name = "") :
    ∃ r t', g'.ref? = some r ∧ built.link.1.arena.target? r = some t' ∧ g'.name = t'.name := by
  have hcontains : built.link.1.Contains g' := contains_iff_exists_fieldAt?.mpr ⟨p, hg'⟩
  obtain ⟨r, href⟩ : ∃ r, g'.ref? = some r := by
    rcases hbuilt.nameGiven (contains_iff_exists_fieldAt?.mpr ⟨p, hg⟩) with hname | ⟨-, r, hr⟩
    · exact absurd hempty (Literal.ne_empty_of_isName hname)
    · obtain ⟨change, rfl⟩ := eq_complete_of_fieldAt? hg hg'
      exact ⟨change r, by rw [Field.ref?_complete, Field.ref?_mapRefs, hr, Option.map_some]⟩
  have hown : r ∈ g'.ownRefs := by
    obtain ⟨bitLength, hbody⟩ := Field.ref?_eq_some.mp href
    rw [Field.ownRefs, hbody]
    exact List.mem_singleton_self r
  obtain ⟨t', htarget, -⟩ := hs.exists_target (.of_contains hcontains hown)
  exact ⟨r, t', href, htarget, hbuilt.name_fieldAt?_link hg hg' href htarget hempty⟩

/-- **All fields of a checked schema have names**, at any depth. -/
theorem isName (hs : s.Checked) (hg' : s.Contains g') : Literal.isName g'.name = true := by
  have hchecked := hs
  obtain ⟨built, hbuilt, rfl, -⟩ := hs
  obtain ⟨p, g, hg, hp⟩ := exists_fieldAt?_of_contains_link hg'
  by_cases hempty : g.name = ""
  · obtain ⟨r, t', -, htarget, hname⟩ := hchecked.exists_target_of_nameless hbuilt hg hp hempty
    obtain ⟨id, -, ht'⟩ := Option.bind_eq_some_iff.mp htarget
    rw [hname]
    exact hbuilt.isName_arena_link ht'
  · have hgiven := hbuilt.nameGiven (contains_iff_exists_fieldAt?.mpr ⟨p, hg⟩)
    rw [name_fieldAt?_link_of_ne hg hp hempty]
    exact hgiven.resolve_right fun h => hempty h.1

theorem name_ne_empty (hs : s.Checked) (hf : s.Contains g') : g'.name ≠ "" :=
  Literal.ne_empty_of_isName (hs.isName hf)

/-- The fields of a namespace are listed under their names. -/
theorem names_ownFields (hs : s.Checked) (hn : n.Within s.root) :
    (s.ownFields n).map Field.name = n.fields.map Prod.fst := by
  obtain ⟨built, hbuilt, rfl, -⟩ := hs
  rw [ownFields, List.map_filterMap, ← List.filterMap_eq_map]
  exact List.filterMap_congr fun entry hentry => hbuilt.name_listed_link hn hentry

theorem nodup_members (hs : s.Checked) (hf : s.Contains g') :
    (g'.members.map Field.name).Nodup := by
  have hnamed (m : Field) (hm : m ∈ g'.members) : m.name ≠ "" :=
    hs.name_ne_empty (hf.inner (g'.members_subset_inner hm))
  have hindexed := hs.indexed
  obtain ⟨-, -, -, -, dependent, hcheck⟩ := hs
  exact (distinct_of_check hindexed hcheck hf g' ReflTransGen.refl).nodup hnamed

/-- **In a checked schema all fields have names, and those side by side different ones.** -/
theorem wellNamed (hs : s.Checked) : s.WellNamed where
  name f hf := ⟨hs.name_ne_empty hf, hs.isName hf⟩
  members f hf := hs.nodup_members hf
  message n hn m hm := by
    have hnamed (f : Field) (hf : f ∈ m.fields) : f.name ≠ "" :=
      hs.name_ne_empty (Stands.declared hn (.message hm hf)).contains
    obtain ⟨-, -, -, -, dependent, hcheck⟩ := hs
    exact ((Namespace.distinct_of_check (check_namespace_eq_ok hcheck hn)).1 m hm).nodup hnamed
  interface n hn i hi := by
    have hnamed (f : Field) (hf : f ∈ i.fields) : f.name ≠ "" :=
      hs.name_ne_empty (Stands.declared hn (.interface hi hf)).contains
    obtain ⟨-, -, -, -, dependent, hcheck⟩ := hs
    exact ((Namespace.distinct_of_check (check_namespace_eq_ok hcheck hn)).2 i hi).nodup hnamed
  listed n hn := by
    have hsorted := (hs.indexed.orderly n hn).sorted_fields
    rw [hs.names_ownFields hn]
    exact ⟨rfl, List.pairwise_map.mpr (hsorted.imp ne_of_lt)⟩

end Checked

end Schema

end WireSchema
