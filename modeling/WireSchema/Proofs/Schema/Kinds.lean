import WireSchema.Proofs.Schema.Fields
import WireSchema.Proofs.Schema.Following
import WireSchema.Proofs.Schema.Passed

/-! # Kinds in a checked schema

In a schema that documents built, and that was linked without an error and passes its check, fields
are of the kinds that they are used as (`Checked.wellKinded`): roles fit the kinds of the fields
that have them (`Checked.role`), counts and lengths are read from integers (`Checked.source`), and
layers have fields that can hold their values (`Checked.layer`). -/

namespace WireSchema

open Markup Relation

/-! ### What is read -/

/-- The role of the field fits its kind; a reference has its role for its target. -/
def Field.RoleFits (f : Field) : Prop := f.ref? = none → f.core.semanticType.fits f.kind = true

theorem yields_roleFits_readMerged (ctx : Context) (nested : NestedReader) (pos : Position)
    (e : Element) : (readMerged ctx nested pos e).Yields Field.RoleFits := by
  intro f hf hnone
  obtain ⟨kind, -, -, hbody, hrole⟩ := readMerged_eq_ok.mp hf
  have hgives : nested.GivesIn f.core.window fun _ => True := fun _ _ _ _ _ => trivial
  have hkind : f.kind = kind := (yields_inner_readBody hgives kind _ hbody).1
  rw [Bool.or_eq_true, beq_iff_eq, ← hkind, Field.kind_eq_ref_iff] at hrole
  rcases hrole with href | hrole
  · exact absurd hnone href
  · exact hrole

theorem Field.roleFits_mapRefs_iff (g : FieldRef → FieldRef) (f : Field) :
    (f.mapRefs g).RoleFits ↔ f.RoleFits := by
  rw [RoleFits, RoleFits, ref?_mapRefs, Option.map_eq_none_iff, core_mapRefs, kind_mapRefs]

theorem Field.roleFits_complete_iff (a : Arena) (f : Field) :
    (f.complete a).1.RoleFits ↔ f.RoleFits := by
  rw [RoleFits, RoleFits, ref?_complete, kind_complete]
  refine forall_congr' fun hnone => ?_
  rw [core_complete_of_not_ref fun target bitLength hbody => ?_]
  rw [ref?_eq_some.mpr ⟨bitLength, hbody⟩] at hnone
  cases hnone

/-- The layer has a field, unless it is the payload. -/
def Layer.Furnished (l : Layer) : Prop := l.kind ≠ .payload → l.field.isSome = true

theorem Layer.yields_furnished_read (ctx : Context) (e : Element) :
    (Layer.read ctx e).Yields Layer.Furnished := by
  unfold Layer.read
  refine Pass.yields_bind fun _ => Pass.yields_bind fun _ => Pass.yields_bind fun kind => ?_
  refine Pass.yields_bind fun _ => Pass.yields_bind fun field => Pass.yields_bind fun _ => ?_
  refine (Pass.yields_require _ _).bind fun _ hfield => Pass.yields_bind fun _ => ?_
  refine Pass.yields_bind fun _ => Pass.yields_pure fun hkind => ?_
  rw [Bool.or_eq_true, beq_iff_eq] at hfield
  exact hfield.resolve_left hkind

theorem Layer.Furnished.mapRefs {l : Layer} (h : l.Furnished) (g : FieldRef → FieldRef) :
    (l.mapRefs g).Furnished := by
  intro hkind
  exact (Option.isSome_map ..).trans (h hkind)

theorem Layer.Furnished.complete {l : Layer} (h : l.Furnished) (a : Arena) :
    (Namespace.completeLayer a l).1.Furnished := by
  unfold Namespace.completeLayer
  split
  · exact fun _ => rfl
  · exact h

namespace Schema

variable {s : Schema} {f : Field} {siblings : Siblings} {l : Layer}

theorem Built.furnished_link (h : s.Built) : s.link.1.root.Everywhere fun n =>
    ∀ fr ∈ n.frames, ∀ l ∈ fr.layers, l.Furnished := by
  have hread := h.everywhere (Namespace.upkeep_allParts (I := fun _ => True) (M := fun _ => True)
    (fun _ _ _ _ _ => trivial) (fun _ _ _ _ _ => trivial)
    fun ctx _ _ => Frame.forall_layer_of_read (Layer.yields_furnished_read ctx))
  refine everywhere_link (fun n hn fr' hfr' l' hl' => ?_) (fun n hn => ?_) hread
  · rw [Namespace.frames_mapParts] at hfr'
    obtain ⟨fr, hfr, rfl⟩ := List.mem_map.mp hfr'
    obtain ⟨_, hbound, rfl⟩ := List.mem_map.mp hl'
    obtain ⟨l, hl, rfl⟩ := List.mem_map.mp hbound
    exact ((hn.frame fr hfr l hl).mapRefs _).complete _
  · unfold Namespace.addDefaultInterface
    split_ifs <;> exact hn

/-! ### What is found -/

/-- The layer is one of a frame of the schema. -/
def HasLayer (s : Schema) (l : Layer) : Prop :=
  ∃ n : Namespace, n.Within s.root ∧ ∃ fr ∈ n.frames, l ∈ fr.layers

/-- The interface is one of the schema. -/
def HasInterface (s : Schema) (i : Interface) : Prop :=
  ∃ n : Namespace, n.Within s.root ∧ i ∈ n.interfaces

namespace Checked

theorem indexed (hs : s.Checked) : s.Indexed := by
  obtain ⟨built, hbuilt, rfl, -⟩ := hs
  exact hbuilt.indexed.link

theorem exists_target {r : FieldRef} (hs : s.Checked) (hr : s.HasRef r) :
    ∃ f, s.arena.target? r = some f ∧ s.Contains f := by
  obtain ⟨built, hbuilt, rfl, hclean, -⟩ := hs
  obtain ⟨id, f, ht, hf, -⟩ := exists_target_of_link hbuilt.indexed hclean (mem_refs_iff.mpr hr)
  have htarget : built.link.1.arena.target? r = some f := by
    rw [Arena.target?, ht]
    exact hf
  exact ⟨f, htarget, .of_target htarget⟩

theorem exists_resolved (hs : s.Checked) (hf : s.Contains f) :
    ∃ t, s.arena.resolved f = some t := by
  obtain ⟨built, hbuilt, rfl, hclean, -⟩ := hs
  exact exists_resolved_of_link hbuilt.indexed hclean hf

/-- **Roles fit.** A field with a role leads to one of a kind that can have the role. -/
theorem role (hs : s.Checked) (hf : s.Contains f) :
    ∃ kind, s.arena.endKind? f = some kind ∧ f.core.semanticType.fits kind = true := by
  obtain ⟨t, ht⟩ := hs.exists_resolved hf
  refine ⟨t.kind, Option.map_eq_some_iff.mpr ⟨t, ht, rfl⟩, ?_⟩
  cases href : f.ref? with
  | none =>
    rw [Arena.resolved_of_not_ref href, Option.some.injEq] at ht
    obtain ⟨built, hbuilt, rfl, -⟩ := hs
    obtain ⟨top, htop, hwithin⟩ := hf
    have hfits := hbuilt.forall_within_link yields_roleFits_readMerged Field.roleFits_mapRefs_iff
      Field.roleFits_complete_iff top htop f hwithin
    rw [← ht]
    exact hfits href
  | some r =>
    obtain ⟨siblings, hstands⟩ := (contains_iff_exists_stands hs.indexed).mp hf
    obtain ⟨-, -, -, -, dependent, hcheck⟩ := hs
    exact (hstands.passes hcheck).role href ht

/-- **Counts and lengths are read from integers**, which are found where the field stands. -/
theorem source (hs : s.Checked) (hf : s.Stands f siblings) {p : Prefix}
    (hp : p ∈ f.body.prefixes) :
    ((p.source? s.arena siblings).bind s.arena.endKind?) = some .int := by
  have hintegral : p.Integral s.arena siblings := by
    obtain ⟨-, -, -, -, dependent, hcheck⟩ := hs
    exact (hf.passes hcheck).integral p hp
  obtain ⟨g, hg, hcontains⟩ : ∃ g, p.source? s.arena siblings = some g ∧ s.Contains g := by
    rcases p with g | r | name
    · exact ⟨g, rfl, hf.contains.inner (Field.mem_inner_of_mem_prefixes hp)⟩
    · exact hs.exists_target (.of_contains hf.contains (Field.mem_ownRefs_of_mem_prefixes hp))
    · obtain ⟨g, hg⟩ := hintegral.sibling name rfl
      exact ⟨g, hg, hf.sibling hg⟩
  obtain ⟨t, ht⟩ := hs.exists_resolved hcontains
  rw [hg, Option.bind_some, Arena.endKind?, ht, Option.map_some, hintegral.kind g t hg ht]

/-- **The field of a layer is found, and fits the layer.** -/
theorem layer (hs : s.Checked) (hl : s.HasLayer l) (hkind : l.kind ≠ .payload) :
    ∃ kind, (l.field? s.arena).bind s.arena.endKind? = some kind ∧ l.fits kind = true := by
  obtain ⟨n, hn, fr, hfr, hl⟩ := hl
  have hfield : l.field.isSome = true := by
    obtain ⟨built, hbuilt, rfl, -⟩ := hs
    exact hbuilt.furnished_link n hn fr hfr l hl hkind
  have hpassed : ∀ f, (l.field? s.arena).bind s.arena.resolved = some f → l.fits f.kind = true := by
    obtain ⟨-, -, -, -, dependent, hcheck⟩ := hs
    exact ((passed_of_check hcheck hn).layer fr hfr l hl).fits
  obtain ⟨f, hf, hcontains⟩ : ∃ f, l.field? s.arena = some f ∧ s.Contains f := by
    obtain ⟨part, hpart⟩ := Option.isSome_iff_exists.mp hfield
    rw [Layer.field?, hpart, Option.bind_some]
    cases part with
    | inline f => exact ⟨f, rfl, (Stands.declared hn (.layer hfr hl hpart)).contains⟩
    | reference r => exact hs.exists_target (Or.inr ⟨n, hn, fr, hfr, l, hl, hpart⟩)
  obtain ⟨t, ht⟩ := hs.exists_resolved hcontains
  rw [hf, Option.bind_some] at hpassed ⊢
  exact ⟨t.kind, Option.map_eq_some_iff.mpr ⟨t, ht, rfl⟩, hpassed t ht⟩

/-- **A value layer feeds a field of an interface** of the schema. -/
theorem value (hs : s.Checked) (hl : s.HasLayer l) {name : String} {pseudo : Bool}
    (hkind : l.kind = .value name pseudo) :
    ∃ i, s.HasInterface i ∧ ∃ f ∈ i.fields, f.name = name := by
  obtain ⟨n, hn, fr, hfr, hl⟩ := hl
  obtain ⟨-, -, -, -, dependent, hcheck⟩ := hs
  have hmem := ((passed_of_check hcheck hn).layer fr hfr l hl).value name pseudo hkind
  obtain ⟨i, hi, hf⟩ := List.mem_flatMap.mp hmem
  obtain ⟨f, hf, hname⟩ := List.mem_map.mp hf
  exact ⟨i, Namespace.mem_allInterfaces_iff.mp hi, f, hf, hname⟩

/-- **An interface has at most one version.** -/
theorem versions (hs : s.Checked) {i : Interface} (hi : s.HasInterface i) :
    i.fields.countP (·.core.semanticType == .version) ≤ 1 := by
  obtain ⟨n, hn, hi⟩ := hi
  obtain ⟨-, -, -, -, dependent, hcheck⟩ := hs
  exact (passed_of_check hcheck hn).versions i hi

end Checked

/-- Fields are of the kinds that they are used as, at any depth and at the end of references. -/
structure WellKinded (s : Schema) : Prop where
  /-- Every field stands among some siblings, if only among none. -/
  stands : ∀ f, s.Contains f → ∃ siblings, s.Stands f siblings
  /-- Counts and lengths are read from integers. -/
  source : ∀ f siblings, s.Stands f siblings → ∀ p ∈ f.body.prefixes,
    (p.source? s.arena siblings).bind s.arena.endKind? = some .int
  /-- Versions and lengths are integers. -/
  number : ∀ f, s.Contains f →
    f.core.semanticType = .version ∨ f.core.semanticType = .length →
      s.arena.endKind? f = some .int
  /-- Ids of messages are enumerations. -/
  messageId : ∀ f, s.Contains f → f.core.semanticType = .messageId →
    s.arena.endKind? f = some .enum
  /-- The field of a size layer is an integer. -/
  size : ∀ l, s.HasLayer l → l.kind = .size →
    (l.field? s.arena).bind s.arena.endKind? = some .int
  /-- The field of an id layer is an integer or an enumeration. -/
  id : ∀ l, s.HasLayer l → l.kind = .id →
    (l.field? s.arena).bind s.arena.endKind? = some .int ∨
      (l.field? s.arena).bind s.arena.endKind? = some .enum
  /-- A value layer names a field of an interface. -/
  value : ∀ l, s.HasLayer l → ∀ name pseudo, l.kind = .value name pseudo →
    ∃ i, s.HasInterface i ∧ ∃ f ∈ i.fields, f.name = name
  /-- No interface has two versions. -/
  versions : ∀ i, s.HasInterface i →
    i.fields.countP (·.core.semanticType == .version) ≤ 1

/-- **In a checked schema, fields are of the kinds that they are used as.** -/
theorem Checked.wellKinded (hs : s.Checked) : s.WellKinded where
  stands _ := (contains_iff_exists_stands hs.indexed).mp
  source _ _ hf _ := hs.source hf
  number f hf hrole := by
    obtain ⟨kind, hkind, hfits⟩ := hs.role hf
    rcases hrole with hrole | hrole <;> rw [hrole] at hfits
    · rw [hkind, beq_iff_eq.mp hfits]
    · rw [hkind, beq_iff_eq.mp hfits]
  messageId f hf hrole := by
    obtain ⟨kind, hkind, hfits⟩ := hs.role hf
    rw [hrole] at hfits
    rw [hkind, beq_iff_eq.mp hfits]
  size l hl hsize := by
    obtain ⟨kind, hkind, hfits⟩ := hs.layer hl (by simp [hsize])
    rw [Layer.fits, hsize] at hfits
    rw [hkind, beq_iff_eq.mp hfits]
  id l hl hid := by
    obtain ⟨kind, hkind, hfits⟩ := hs.layer hl (by simp [hid])
    simp only [Layer.fits, hid, Bool.or_eq_true, beq_iff_eq] at hfits
    rw [hkind]
    exact hfits.imp (congrArg some) (congrArg some)
  value _ hl _ _ := hs.value hl
  versions _ := hs.versions

end Schema

end WireSchema
