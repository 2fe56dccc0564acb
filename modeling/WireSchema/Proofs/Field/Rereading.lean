import WireSchema.Proofs.Field.AlikeInside

/-! # Reading a declaration once more

A declaration may be read a second time, in another context and with another number of levels. Which
fields are reused on the way is decided by the context (`Context.Draws`). If each of these paths
leads to the same element in the second context, and there are no fewer levels, then whatever the
first reading gives is what the second one gives (`carries_readField`). -/

namespace WireSchema

open Markup

variable {ctx ctx' : Context} {nested nested' : NestedReader} {pos : Position} {e e' : Element}

/-! ### Declarations whose base is merged in -/

namespace Context

theorem exists_of_base? {path : String} {base : Element} (h : ctx.base? path = some base) :
    ∃ b ∈ ctx.bases, b.2 = base := by
  have hlookup {key : String} (h : ctx.lookup? key = some base) : ∃ b ∈ ctx.bases, b.2 = base := by
    obtain ⟨b, hb, rfl⟩ := Option.map_eq_some_iff.mp h
    exact ⟨b, List.mem_of_find?_eq_some hb, rfl⟩
  rcases Option.or_eq_some_iff.mp h with h | ⟨-, h⟩
  · exact hlookup h
  · exact hlookup h

/-- An element that is merged is as it was, or laid over a base with its tag. -/
theorem merge_eq_ok {merged : Element} (h : ctx.merge e = .ok merged) :
    ∃ kind, FieldKind.ofTag? e.tag = some kind ∧
      (merged = e ∨ ∃ base, (∃ b ∈ ctx.bases, b.2 = base) ∧ base.tag = e.tag ∧
        merged = e.inheritFrom base kind.properties) := by
  unfold merge at h
  split at h
  · cases h
  · rename_i kind hkind
    refine ⟨kind, hkind, ?_⟩
    split at h
    · cases h
    · exact Or.inl (Except.ok.inj h).symm
    · split at h
      · cases h
      · rename_i base hbase
        split_ifs at h with htag
        exact Or.inr ⟨base, exists_of_base? hbase, beq_iff_eq.mp htag, (Except.ok.inj h).symm⟩

end Context

/-- **A declaration that is alike is read as the same field with another core**, but for the lines
of its own references. -/
theorem readMerged_of_alike {kind : FieldKind} {f : Field} {core' : FieldCore}
    (hf : (readMerged ctx nested pos e).result = .ok f) (hkind : FieldKind.ofTag? e.tag = some kind)
    (htag : e'.tag = e.tag)
    (h : Alike ctx ctx' f.core core' (e.props kind.properties) (e'.props kind.properties) e e')
    (hnested : nested.CarriesInside nested' e)
    (hcore' : readCore ctx' pos (e'.props kind.properties) e' = .ok core')
    (hrole : core'.semanticType = f.core.semanticType) :
    (readMerged ctx' nested' pos e').result = .ok (.mk core' (f.body.atLine core'.line)) := by
  obtain ⟨kind', hkind', -, hbody, hfits⟩ := readMerged_eq_ok.mp hf
  obtain rfl : kind = kind' := Option.some.inj (hkind.symm.trans hkind')
  obtain ⟨body', hbody', rfl⟩ := h.carries_readBody hnested kind _ hbody
  refine readMerged_eq_ok.mpr ⟨kind, htag ▸ hkind, hcore', hbody', ?_⟩
  rw [Field.core, hrole]
  exact hfits

/-- An element is alike to itself in all contexts of one schema. -/
theorem Alike.refl {core : FieldCore} (hversion : ctx'.schemaVersion = ctx.schemaVersion)
    (hendian : ctx'.endian = ctx.endian) (hline : core.line = e.line) (props : Props) :
    Alike ctx ctx' core core props props e e :=
  ⟨hversion, hendian, rfl, hline, hline, fun _ _ _ => rfl, fun _ _ _ => rfl⟩

/-- The references that a declaration holds itself have the line of the declaration. -/
theorem atLine_of_readMerged {f : Field} (hf : (readMerged ctx nested pos e).result = .ok f) :
    f.body.atLine f.core.line = f.body := by
  obtain ⟨kind, -, hcore, hbody, -⟩ := readMerged_eq_ok.mp hf
  obtain ⟨-, -, -, -, -, -, hline⟩ := readCore_eq_ok.mp hcore
  -- read once more as it stands, the body is the same, and its references are in this line
  have hsame : nested.CarriesInside nested e := fun pos c _ _ => carries_rfl _
  obtain ⟨body', hbody', h⟩ := (Alike.refl rfl rfl hline _).carries_readBody hsame kind _ hbody
  rw [← h]
  exact Except.ok.inj (hbody'.symm.trans hbody)

/-- The namespace only matters for what is declared in it. -/
theorem readCore_congr (hversion : ctx'.schemaVersion = ctx.schemaVersion)
    (hscope : pos.topLevel = true → ctx'.scope = ctx.scope) (props : Props) (e : Element) :
    readCore ctx' pos props e = readCore ctx pos props e := by
  have href (name : String) : (if pos.topLevel then ctx'.externalRef name else "") =
      if pos.topLevel then ctx.externalRef name else "" := by
    split_ifs with htop
    · unfold Context.externalRef
      rw [hscope htop]
    · rfl
  unfold readCore
  simp only [hversion, href]

theorem carries_readMerged (hversion : ctx'.schemaVersion = ctx.schemaVersion)
    (hendian : ctx'.endian = ctx.endian) (hscope : pos.topLevel = true → ctx'.scope = ctx.scope)
    (hnested : nested.CarriesInside nested' e) :
    Carries Eq (readMerged ctx nested pos e).result (readMerged ctx' nested' pos e).result := by
  intro f hf
  obtain ⟨kind, hkind, hcore, -⟩ := readMerged_eq_ok.mp hf
  have hparts := readCore_eq_ok.mp hcore
  have hcore' : readCore ctx' pos (e.props kind.properties) e = .ok f.core := by
    rw [readCore_congr hversion hscope]
    exact hcore
  have halike := Alike.refl hversion hendian hparts.2.2.2.2.2.2 (e.props kind.properties)
  refine ⟨f, ?_, rfl⟩
  rw [readMerged_of_alike hf hkind rfl halike hnested hcore' rfl, atLine_of_readMerged hf]
  cases f
  rfl

/-! ### Declarations that reuse -/

/-- The path of a field that is reused where the element is read: by the element itself, or by one
that is declared inside of it or of a field that it reuses. -/
inductive Context.Draws (ctx : Context) : Element → String → Prop
  | own {e : Element} {path : String}
    (h : (e.props ["reuse"]).single "reuse" = .ok (some path)) : Draws ctx e path
  | inner {e merged c : Element} {path : String} (hmerge : ctx.merge e = .ok merged)
    (hc : merged.Inner c) (h : Draws ctx c path) : Draws ctx e path

theorem Context.merge_eq_of_base?
    (h : ∀ path, (e.props ["reuse"]).single "reuse" = .ok (some path) →
      ctx'.base? path = ctx.base? path) : ctx'.merge e = ctx.merge e := by
  unfold merge
  cases FieldKind.ofTag? e.tag with
  | none => rfl
  | some kind =>
    cases hreuse : (e.props ["reuse"]).single "reuse" with
    | error err => rfl
    | ok given =>
      cases given with
      | none => rfl
      | some path => simp only [h path hreuse]

/-- **A reading depends on the bases that it draws on.** What is read with some number of levels is
read in each context of the schema in which these bases are the same, and with more levels. -/
theorem carries_readField (hversion : ctx'.schemaVersion = ctx.schemaVersion)
    (hendian : ctx'.endian = ctx.endian) {n m : Nat} (hnm : n ≤ m) (pos : Position) (e : Element)
    (hpos : pos.topLevel = false)
    (hbase : ∀ path, ctx.Draws e path → ctx'.base? path = ctx.base? path) :
    Carries Eq (readField ctx n pos e).result (readField ctx' m pos e).result := by
  -- on the levels of the first reading: a nested declaration may be one of another field, so that
  -- the elements do not get smaller
  induction n generalizing m pos e with
  | zero => exact carries_endless _
  | succ n ih =>
    obtain ⟨m, rfl⟩ := Nat.exists_eq_add_of_lt hnm
    unfold readField
    rw [Context.merge_eq_of_base? fun path hpath => hbase path (.own hpath)]
    intro f hf
    obtain ⟨merged, hmerged, hf⟩ := Pass.result_bind_eq_ok.mp hf
    rw [Pass.result_liftM_eq_ok] at hmerged
    have hnested : (readField ctx n).CarriesInside (readField ctx' (n + m)) merged :=
      fun pos c hpos hc => ih (Nat.le_add_right n m) pos c hpos fun path hpath =>
        hbase path (.inner hmerged hc hpath)
    obtain ⟨f', hf', rfl⟩ :=
      carries_readMerged hversion hendian (fun h => by simp [hpos] at h) hnested f hf
    exact ⟨f, Pass.result_bind_eq_ok.mpr ⟨merged, Pass.result_liftM_eq_ok.mpr hmerged, hf'⟩, rfl⟩

end WireSchema
