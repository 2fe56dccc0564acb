import WireSchema.Proofs.Field.Inside
import WireSchema.Proofs.Literal.Path

/-! # Aliases as they are read

An alias that is read has a path, so that none of the names on it is empty, and a name of its own
that no other alias and no member has (`readAliases_eq_ok`). This holds of the aliases of all fields
that are read (`yields_aliasesRead_readBody`); members that take their names later are not among
those that it is said of. -/

namespace WireSchema

open Markup

theorem Literal.empty_notMem_segments {path : String} (h : isPath path = true) :
    "" ∉ segments path := by
  unfold isPath at h
  rw [Bool.and_eq_true, List.all_eq_true] at h
  intro hmem
  obtain ⟨cs, hcs, hempty⟩ := List.mem_map.mp hmem
  have hname := h.2 cs hcs
  rw [String.ofList_eq_empty_iff] at hempty
  rw [hempty] at hname
  exact absurd hname (by decide)

/-- What is known of aliases that are read beside the members. -/
structure AliasesRead (members : List Field) (aliases : List Alias) : Prop where
  path : ∀ other ∈ aliases, Literal.isPath other.fieldPath = true
  nodup : (aliases.map Alias.name).Nodup
  fresh : ∀ other ∈ aliases, ∀ m ∈ members, m.name ≠ other.name

/-- The aliases of the body were read beside its members. -/
def Body.AliasesRead (b : Body) : Prop := WireSchema.AliasesRead b.members b.aliases

section
variable {ctx : Context} {nested : NestedReader} {core : FieldCore} {props : Props} {e : Element}
  {members : List Field}

theorem readAlias_eq_ok {known : List Alias} {other : Alias}
    (h : readAlias core members known e = .ok other) :
    Literal.isPath other.fieldPath = true ∧ (∀ a ∈ known, a.name ≠ other.name) ∧
      ∀ m ∈ members, m.name ≠ other.name := by
  unfold readAlias at h
  obtain ⟨name, -, h⟩ := bind_eq_ok.mp h
  obtain ⟨_, -, h⟩ := bind_eq_ok.mp h
  dsimp only at h
  split at h
  · exact absurd h throw_bind_ne_ok
  · rename_i hknown
    split at h
    · exact absurd h throw_bind_ne_ok
    · rename_i hmembers
      obtain ⟨raw, -, h⟩ := bind_eq_ok.mp h
      split_ifs at h with hpath
      · obtain ⟨description, -, h⟩ := bind_eq_ok.mp h
        cases h
        exact ⟨hpath, by simpa using hknown, by simpa using hmembers⟩
      · exact absurd h throw_bind_ne_ok

theorem readAliases_eq_ok {aliases : List Alias}
    (h : readAliases core members e = .ok aliases) : AliasesRead members aliases := by
  refine foldlM_keeps (Q := AliasesRead members) (fun known child other hknown hother => ?_) h ?_
  · obtain ⟨hpath, hnames, hmembers⟩ := readAlias_eq_ok hother
    refine ⟨List.forall_mem_append.mpr ⟨hknown.path, List.forall_mem_singleton.mpr hpath⟩, ?_,
      List.forall_mem_append.mpr ⟨hknown.fresh, List.forall_mem_singleton.mpr hmembers⟩⟩
    rw [List.map_append, List.nodup_append]
    refine ⟨hknown.nodup, List.pairwise_singleton _ _, fun name hname name' hname' => ?_⟩
    obtain ⟨a, ha, rfl⟩ := List.mem_map.mp hname
    rw [List.mem_singleton.mp hname']
    exact hnames a ha
  · exact ⟨by simp, List.nodup_nil, by simp⟩

theorem yields_aliasesRead_readBundle : (readBundle nested core e).Yields Body.AliasesRead := by
  unfold readBundle
  refine Pass.yields_bind fun _ => Pass.yields_bind fun _ => ?_
  exact (Pass.yields_liftM fun as => readAliases_eq_ok).bind fun as has => Pass.yields_pure has

theorem yields_aliasesRead_readVariant :
    (readVariant nested core props e).Yields Body.AliasesRead := by
  have haliases {members : List Field} {member : Option Nat} :
      ((liftM (readAliases core members e) : Pass (List Alias)) >>= fun aliases =>
        pure (Body.variant members member aliases)).Yields Body.AliasesRead :=
    (Pass.yields_liftM fun as => readAliases_eq_ok).bind fun as has => Pass.yields_pure has
  unfold readVariant
  refine Pass.yields_bind fun _ => Pass.yields_bind fun _ => ?_
  split
  · exact Pass.yields_bind fun _ => haliases
  · exact Pass.yields_bind fun _ => haliases

end

/-- **The aliases of every body that is read have paths, and names of their own.** -/
theorem yields_aliasesRead_readBody (ctx : Context) (nested : NestedReader) (kind : FieldKind)
    (core : FieldCore) (pos : Position) (props : Props) (e : Element) :
    (readBody ctx nested kind core pos props e).Yields Body.AliasesRead := by
  have hinner : nested.GivesIn core.window fun _ => True := fun _ _ _ _ _ => trivial
  have hnone (h : kind ≠ .bundle ∧ kind ≠ .variant) :
      (readBody ctx nested kind core pos props e).Yields Body.AliasesRead := by
    refine (yields_inner_readBody hinner kind).imp fun body hbody => ?_
    have haliases : body.aliases = [] := by
      rw [← hbody.1] at h
      cases body <;> simp [Body.kind, Body.aliases] at h ⊢
    rw [Body.AliasesRead, haliases]
    exact ⟨by simp, List.nodup_nil, by simp⟩
  cases kind with
  | bundle => exact yields_aliasesRead_readBundle
  | variant => exact yields_aliasesRead_readVariant
  | _ => exact hnone (by decide)

end WireSchema
