import WireSchema.Proofs.Schema.Kinds
import WireSchema.Proofs.Schema.Windows
import WireSchema.Proofs.Session.Lookup

/-! # Variants of a checked schema

Where code depends on the version, a variant should hold nothing that comes later than the variant
itself. After a check that succeeds, this is so of its members, which begin with it, but not of what
stands inside of them: the check compares the versions of the members alone
(`variant_members_begin_with_variant`). The check is made with the choice about versions that the
session has (`passesAsChosen_after`). -/

namespace WireSchema

open Markup Relation

/-! ### The check -/

section
variable {cx : CheckContext} {core : FieldCore} {siblings : Siblings} {f g m : Field}

theorem Field.isVersionDependent_of_since (h : 0 < f.window.since) :
    f.isVersionDependent = true := by
  obtain ⟨core, body⟩ := f
  change 0 < core.window.since at h
  cases body <;> simp [Field.isVersionDependent, h]

theorem checkVariantVersions_eq_ok {ms : List Field}
    (h : (checkVariantVersions cx core ms).result = .ok true)
    (hdependent : cx.versionDependentCode = true) :
    ∀ m ∈ ms, m.isVersionDependent = true → m.window.since = core.window.since := by
  induction ms with
  | nil => simp
  | cons m ms ih =>
    rw [checkVariantVersions] at h
    obtain ⟨hm, hms⟩ := Pass.result_and_eq_ok.mp h
    refine List.forall_mem_cons.mpr ⟨fun hlater => ?_, ih hms⟩
    have hsame := Pass.result_require_eq_ok.mp (Pass.result_succeeds_eq_ok.mp hm)
    simpa [hdependent, hlater] using hsame

/-- **Where code depends on the version, a member of a variant that passes comes with the variant**
if it does not come with the schema. -/
theorem Field.Passes.variantVersions (h : f.Passes cx siblings) (hkind : f.kind = .variant)
    (hdependent : cx.versionDependentCode = true) :
    ∀ m ∈ f.members, m.isVersionDependent = true → m.window.since = f.window.since := by
  obtain ⟨core, body⟩ := f
  cases body with
  | variant ms default aliases =>
    rw [Passes, check] at h
    obtain ⟨ok, -, h⟩ := Pass.result_bind_eq_ok.mp h
    obtain ⟨same, hsame, h⟩ := Pass.result_bind_eq_ok.mp h
    rw [((Bool.and_eq_true _ _).mp (Pass.result_require_eq_ok.mp h)).2] at hsame
    exact checkVariantVersions_eq_ok hsame hdependent
  | _ => cases hkind

theorem Versioned.within_field (h : g.Within f) : (Versioned.field g).Within (.field f) := by
  unfold Field.Within at h
  induction h with
  | refl => exact ReflTransGen.refl
  | tail _ hg ih => exact ih.tail (List.mem_append_left _ (List.mem_map_of_mem hg))

end

/-! ### Schemas -/

namespace Schema

variable {s : Schema} {f g m : Field}

/-- In a checked schema, what stands inside of a field does not come earlier. -/
theorem Checked.since_le (hs : s.Checked) (hf : s.Contains f) (hg : g.Within f) :
    f.window.since ≤ g.window.since := by
  obtain ⟨built, hbuilt, rfl, -⟩ := hs
  obtain ⟨top, htop, hwithin⟩ := hf
  have hsits := hbuilt.sitsIn_link (x := .field top) htop
  exact ((hsits.of_within (Versioned.within_field hwithin)).of_within
    (Versioned.within_field hg)).1.parent_since_le

/-- **Members of a variant begin with it**, if the schema passes its check for code that depends on
the version. -/
theorem Checked.since_eq (hs : s.Checked) (hcheck : (s.check true).result = .ok true)
    (hf : s.Contains f) (hkind : f.kind = .variant) (hm : m ∈ f.members) :
    m.window.since = f.window.since := by
  have hle : f.window.since ≤ m.window.since :=
    hs.since_le hf (ReflTransGen.single (f.members_subset_inner hm))
  obtain ⟨siblings, hstands⟩ := (contains_iff_exists_stands hs.indexed).mp hf
  rcases Nat.eq_zero_or_pos m.window.since with hzero | hpos
  · omega
  · exact (hstands.passes hcheck).variantVersions hkind rfl m hm
      (Field.isVersionDependent_of_since hpos)

end Schema

/-! ### Sessions -/

namespace Session

open Schema

variable {s : Session} {call : Call}

/-- **No call changes what the caller asked for.** -/
theorem config_perform (s : Session) (call : Call) : (s.perform call).config = s.config := by
  have helement (s : Session) (root : Element) : (s.parseElement root).1.config = s.config := by
    unfold parseElement
    split_ifs
    · rfl
    · split
      · rfl
      · dsimp only
        split <;> rfl
  have hnamed (s : Session) (name text : String) :
      (s.parseNamed name text).1.config = s.config := by
    unfold parseNamed
    dsimp only
    split
    · rfl
    · exact helement _ _
  cases call with
  | listen => rfl
  | element root => exact helement s root
  | named name text => exact hnamed s name text
  | file path content =>
    cases content with
    | error fault => rfl
    | ok text => exact hnamed s path text
  | validate =>
    show s.validate.1.config = s.config
    unfold validate
    split
    · rfl
    · unfold runValidation
      dsimp only
      split
      · rfl
      · split
        · exact config_linkAndCheck _ _
        · split_ifs
          · rfl
          · exact config_linkAndCheck _ _

/-- A schema whose check succeeded passes it with the choice about versions that the session has. -/
def PassesAsChosen (s : Session) : Prop := s.validated = some true →
  ∃ schema, s.schema = some schema ∧ (schema.check s.versionDependentCode).result = .ok true

theorem versionDependentCode_eq {schema : Schema} (h : s.schema = some schema) :
    s.versionDependentCode = s.config.versionDependentCode.getD schema.hasVersionField := by
  rw [versionDependentCode, h, Option.any_some]

theorem PassesAsChosen.validate (h : s.PassesAsChosen) : s.validate.1.PassesAsChosen := by
  unfold Session.validate
  cases hvalidated : s.validated with
  | some result => exact h
  | none =>
    intro htrue
    have hok : s.runValidation.2 = true := Option.some.inj htrue
    obtain ⟨schema, -, hlink⟩ := runValidation_eq hok
    rw [hlink] at hok
    have hschema : s.runValidation.1.schema = some schema.link.1 := by
      rw [hlink]
      exact schema_linkAndCheck s schema
    refine ⟨schema.link.1, hschema, ?_⟩
    show (schema.link.1.check (s.runValidation.1.config.versionDependentCode.getD
      (s.runValidation.1.schema.any (·.hasVersionField)))).result = .ok true
    rw [hschema, Option.any_some, hlink, config_linkAndCheck]
    exact check_of_linkAndCheck hok

theorem PassesAsChosen.perform (h : s.PassesAsChosen) (call : Call) :
    (s.perform call).PassesAsChosen := by
  by_cases hcall : call = .validate
  · rw [hcall]
    exact h.validate
  · intro htrue
    rw [validated_perform hcall] at htrue
    obtain ⟨schema, hschema, hcheck⟩ := h htrue
    have hsame : (s.perform call).schema = some schema := by
      rw [schema_perform_of_validated (by rw [htrue]; rfl), hschema]
    rw [versionDependentCode_eq hschema] at hcheck
    refine ⟨schema, hsame, ?_⟩
    rw [versionDependentCode_eq hsame, config_perform]
    exact hcheck

/-- **In every run, the check is made with the choice about versions that the session has.** -/
theorem passesAsChosen_after (config : Config) (calls : List Call) :
    (after config calls).PassesAsChosen := by
  have hstart : (start config).PassesAsChosen := fun h => by simp [start] at h
  exact List.foldlRecOn calls perform hstart fun _ hs call _ => hs.perform call

/-- **Members of variants begin with the variant.** After a check that succeeds, for code that
depends on the version, each member of a variant, at any depth, begins with the variant, and nothing
inside of it earlier. So nothing inside of the members comes later than the variant, if and only if
nothing there comes later than that in which it stands; the check did not look at it. -/
theorem variant_members_begin_with_variant (config : Config) (calls : List Call)
    (hok : (after config calls).validate.2 = true)
    (hdependent : (after config calls).validate.1.versionDependentCode = true) :
    ∃ schema : Schema, (after config calls).validate.1.schema = some schema ∧
      ∀ v, schema.Contains v → v.kind = .variant →
        (∀ m ∈ v.members, m.window.since = v.window.since) ∧
        (∀ m ∈ v.members, ∀ f : Field, f.Within m → v.window.since ≤ f.window.since) ∧
        ((∀ m ∈ v.members, ∀ f : Field, f.Within m → f.window.since ≤ v.window.since) ↔
          ∀ m ∈ v.members, ∀ f : Field, f.Within m →
            ∀ g ∈ f.inner, g.window.since = f.window.since) := by
  obtain ⟨schema, hschema, hs⟩ := (reachable_after config calls).exists_checked hok
  obtain ⟨schema', hschema', hcheck⟩ :=
    (passesAsChosen_after config calls).validate (by rw [validated_validate, hok])
  obtain rfl : schema = schema' := Option.some.inj (hschema.symm.trans hschema')
  rw [hdependent] at hcheck
  refine ⟨schema, hschema, fun v hv hkind => ?_⟩
  have hmember (m : Field) (hm : m ∈ v.members) : m.window.since = v.window.since :=
    hs.since_eq hcheck hv hkind hm
  have hearliest (m : Field) (hm : m ∈ v.members) (f : Field) (hf : f.Within m) :
      v.window.since ≤ f.window.since :=
    hs.since_le hv (ReflTransGen.head (v.members_subset_inner hm) hf)
  refine ⟨hmember, hearliest, fun hlatest m hm f hf g hg => ?_, fun hsame m hm f hf => ?_⟩
  · have hin : g.Within m := ReflTransGen.tail hf hg
    have hf' := hearliest m hm f hf
    have hg' := hearliest m hm g hin
    have hf'' := hlatest m hm f hf
    have hg'' := hlatest m hm g hin
    omega
  · -- from the member inwards, nothing comes later than that in which it stands
    suffices hbegin : f.window.since = m.window.since by rw [hbegin, hmember m hm]
    unfold Field.Within at hf
    induction hf with
    | refl => rfl
    | tail hwithin hg ih => rw [hsame m hm _ hwithin _ hg, ih]

/-- A session for code that depends on the version, with a variant that begins with version 1 and a
field inside of its member that begins with another one. -/
def variantSession (since : String) : Session :=
  after ⟨none, 0, some true, false⟩
    [.element ⟨"schema", [("name", "P"), ("version", "2")],
      [⟨"variant", [("name", "V"), ("sinceVersion", "1")],
        [⟨"bundle", [("name", "m")],
          [⟨"int", [("name", "x"), ("type", "uint8"), ("sinceVersion", since)], [], "", 4⟩], "", 3⟩],
        "", 2⟩], "", 1⟩]

/-- The versions with which the field at a place, its first member, and the first member of this
one begin. -/
def sinceAt? (s : Schema) (i : FieldId) : Option (FieldKind × Nat × Nat × Nat) :=
  (s.arena.get? i).bind fun v => v.members.head?.bind fun m => m.members.head?.map fun f =>
    (v.kind, v.window.since, m.window.since, f.window.since)

theorem exists_of_sinceAt? {s : Schema} {i : FieldId} {kind : FieldKind} {n n' n'' : Nat}
    (h : sinceAt? s i = some (kind, n, n', n'')) :
    ∃ v m f : Field, s.Contains v ∧ m ∈ v.members ∧ f.Within m ∧ v.kind = kind ∧
      v.window.since = n ∧ m.window.since = n' ∧ f.window.since = n'' := by
  simp only [sinceAt?, Option.bind_eq_some_iff, Option.map_eq_some_iff, Prod.mk.injEq] at h
  obtain ⟨v, hv, m, hm, f, hf, hsince⟩ := h
  exact ⟨v, m, f, ⟨v, Or.inl ⟨i, hv⟩, ReflTransGen.refl⟩, List.mem_of_mem_head? hm,
    ReflTransGen.single (m.members_subset_inner (List.mem_of_mem_head? hf)), hsince⟩

/-- If the field inside begins with the variant, all three do. -/
theorem versions_of_evenVariant :
    (variantSession "1").validate.2 = true ∧
    ∃ (schema : Schema) (v m f : Field), (variantSession "1").validate.1.schema = some schema ∧
      schema.Contains v ∧ v.kind = .variant ∧ m ∈ v.members ∧ f.Within m ∧
      m.window.since = v.window.since ∧ v.window.since ≤ f.window.since ∧ f.window.since = 1 := by
  have hok : (variantSession "1").validate.2 = true := by decide +kernel
  have heval : (variantSession "1").validate.1.schema.bind (sinceAt? · 0) =
      some (.variant, 1, 1, 1) := by decide +kernel
  obtain ⟨schema, hschema, hall⟩ := variant_members_begin_with_variant _ _ hok (by decide +kernel)
  change (variantSession "1").validate.1.schema = some schema at hschema
  rw [hschema, Option.bind_some] at heval
  obtain ⟨v, m, f, hv, hm, hf, hkind, -, -, hsince⟩ := exists_of_sinceAt? heval
  obtain ⟨hmember, hearliest, -⟩ := hall v hv hkind
  exact ⟨hok, schema, v, m, f, hschema, hv, hkind, hm, hf, hmember m hm, hearliest m hm f hf,
    hsince⟩

/-- If it comes later than the variant, the check takes it as well. -/
theorem versions_of_unevenVariant :
    (variantSession "2").validate.2 = true ∧
    (variantSession "2").validate.1.versionDependentCode = true ∧
    ∃ (schema : Schema) (v m f : Field), (variantSession "2").validate.1.schema = some schema ∧
      schema.Contains v ∧ v.kind = .variant ∧ m ∈ v.members ∧ f.Within m ∧
      v.window.since < f.window.since := by
  have heval : (variantSession "2").validate.1.schema.bind (sinceAt? · 0) =
      some (.variant, 1, 1, 2) := by decide +kernel
  obtain ⟨schema, hschema, heval⟩ := Option.bind_eq_some_iff.mp heval
  obtain ⟨v, m, f, hv, hm, hf, hkind, hvariant, -, hsince⟩ := exists_of_sinceAt? heval
  refine ⟨by decide +kernel, by decide +kernel, schema, v, m, f, hschema, hv, hkind, hm, hf, ?_⟩
  rw [hvariant, hsince]
  exact Nat.lt_succ_self 1

end Session

end WireSchema
