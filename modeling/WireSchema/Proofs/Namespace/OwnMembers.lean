import WireSchema.Proofs.Field.Inside
import WireSchema.Proofs.Namespace.Reuse

/-! # Declarations that reuse a field and add members

A bundle or variant that reuses another one and has members of its own inherits the elements that
declare the members of the other one, as they are written. If both write their members directly, the
members of the base come first and then its own. If one of the two uses a wrapper, only the members
in the wrapper are read, and two wrappers are refused (`members_of_reuse`). -/

namespace WireSchema

open Markup

/-! ### Names and kinds -/

/-- The name and the kind of a field. -/
def Field.heading (f : Field) : String × FieldKind := (f.name, f.kind)

variable {ctx ctx' : Context} {n n' : Nat} {pos pos' : Position} {e : Element} {f f' : Field}

theorem GivesName.unique {props : Props} {tag name name' : String}
    (h : GivesName props pos tag name) (h' : GivesName props pos' tag name') : name = name' := by
  rcases h with ⟨h, -⟩ | ⟨h, -, -, rfl⟩ <;> rcases h' with ⟨h', -⟩ | ⟨h', -, -, rfl⟩
  · exact Option.some.inj (Except.ok.inj (h.symm.trans h'))
  · cases h.symm.trans h'
  · cases h.symm.trans h'
  · rfl

/-- The name of a field that is read is given by the element itself, and its kind by the tag. -/
theorem heading_of_readField (h : (readField ctx n pos e).result = .ok f) :
    FieldKind.ofTag? e.tag = some f.kind ∧
      GivesName (e.props f.kind.properties) pos e.tag f.name := by
  cases n with
  | zero => cases h
  | succ n =>
    obtain ⟨merged, hmerged, h⟩ := Pass.result_bind_eq_ok.mp h
    rw [Pass.result_liftM_eq_ok] at hmerged
    obtain ⟨kind, hkind, hcases⟩ := Context.merge_eq_ok hmerged
    have htag : merged.tag = e.tag := by
      rcases hcases with rfl | ⟨base, -, -, rfl⟩ <;> rfl
    have hnames : (merged.props kind.properties).single "name" =
        (e.props kind.properties).single "name" := by
      rcases hcases with rfl | ⟨base, -, -, rfl⟩
      · rfl
      · rw [Element.single_inheritFrom (by decide), if_pos (Or.inl rfl)]
    obtain ⟨kind', hkind', hcore, hbody, -⟩ := readMerged_eq_ok.mp h
    obtain rfl : kind = kind' := Option.some.inj (hkind.symm.trans (htag ▸ hkind'))
    have hgives : (readField ctx n).GivesIn f.core.window fun _ => True :=
      fun _ _ _ _ _ => trivial
    obtain rfl : f.kind = kind := (yields_inner_readBody hgives kind _ hbody).1
    have hname := (readCore_eq_ok.mp hcore).1
    rw [GivesName, hnames, htag] at hname
    exact ⟨hkind, hname⟩

theorem heading_eq_of_readField (h : (readField ctx n pos e).result = .ok f)
    (h' : (readField ctx' n' pos' e).result = .ok f') : f.heading = f'.heading := by
  obtain ⟨hkind, hname⟩ := heading_of_readField h
  obtain ⟨hkind', hname'⟩ := heading_of_readField h'
  have heq : f.kind = f'.kind := Option.some.inj (hkind.symm.trans hkind')
  rw [heq] at hname
  exact Prod.ext (hname.unique hname') heq

/-- **Elements are read as fields of the same names and kinds wherever they are read.** -/
theorem headings_eq_of_reads {es : List Element} {fs fs' : List Field}
    (h : (readField ctx n).Reads pos es fs) (h' : (readField ctx' n').Reads pos' es fs') :
    fs.map Field.heading = fs'.map Field.heading := by
  induction h generalizing fs' with
  | nil =>
    cases h'
    rfl
  | cons hf _ ih =>
    cases h' with
    | cons hf' hrest =>
      rw [List.map_cons, List.map_cons, heading_eq_of_readField hf hf', ih hrest]

/-! ### Members of bundles and variants -/

/-- The kinds of fields with members that may be of any kind. -/
def FieldKind.isGroup (k : FieldKind) : Bool := k == .bundle || k == .variant

theorem FieldKind.isGroup_iff {k : FieldKind} : k.isGroup = true ↔ k = .bundle ∨ k = .variant := by
  rw [isGroup, Bool.or_eq_true, beq_iff_eq, beq_iff_eq]

/-- The elements that declare the members: in the wrapper, if there is one, and else directly. -/
def Markup.Element.memberElements (e : Element) : List Element :=
  match e.childrenNamed "members" with
  | w :: _ => fieldChildren w
  | [] => fieldChildren e

theorem readMembers_eq_ok {nested : NestedReader} {owner : String} {fs : List Field} :
    (readFields nested pos "members" owner e).result = .ok fs ↔
      (e.childrenNamed "members").length ≤ 1 ∧ nested.Reads pos e.memberElements fs := by
  rw [readFields_eq_ok, fieldContainer, Element.memberElements]
  cases e.childrenNamed "members" with
  | nil => simp [fieldChildren]
  | cons w ws =>
    cases ws with
    | nil => simp [fieldChildren]
    | cons w' ws => simp

section bodies
variable {nested : NestedReader} {core : FieldCore} {props : Props} {body : Body}

theorem readBundle_eq_ok :
    (readBundle nested core e).result = .ok body ↔
      ∃ members aliases, (readFields nested (.inside core.window) "members" core.name e).result =
          .ok members ∧
        members ≠ [] ∧ readAliases core members e = .ok aliases ∧
        body = .bundle members aliases := by
  unfold readBundle
  constructor
  · intro h
    obtain ⟨members, hmembers, h⟩ := Pass.result_bind_eq_ok.mp h
    obtain ⟨_, hne, h⟩ := Pass.result_bind_eq_ok.mp h
    obtain ⟨aliases, haliases, h⟩ := Pass.result_bind_eq_ok.mp h
    rw [Pass.result_liftM_eq_ok] at haliases
    have hne := Pass.result_require_eq_ok.mp hne
    refine ⟨members, aliases, hmembers, ?_, haliases, (Except.ok.inj h).symm⟩
    simpa using hne
  · rintro ⟨members, aliases, hmembers, hne, haliases, rfl⟩
    refine Pass.result_bind_eq_ok.mpr ⟨members, hmembers, ?_⟩
    refine Pass.result_bind_eq_ok.mpr ⟨(), Pass.result_require_eq_ok.mpr (by simpa using hne), ?_⟩
    exact Pass.result_bind_eq_ok.mpr ⟨aliases, Pass.result_liftM_eq_ok.mpr haliases, rfl⟩

/-- The default member that the properties of a variant give. -/
def GivesDefault (props : Props) (core : FieldCore) (members : List Field)
    (default : Option Nat) : Prop :=
  (props.single "defaultMember" = .ok none ∧ default = none) ∨
    ∃ s, props.single "defaultMember" = .ok (some s) ∧
      readDefaultMember core members s = .ok default

theorem readVariant_eq_ok :
    (readVariant nested core props e).result = .ok body ↔
      ∃ members default aliases,
        (readFields nested (.inside core.window) "members" core.name e).result = .ok members ∧
        GivesDefault props core members default ∧ readAliases core members e = .ok aliases ∧
        body = .variant members default aliases := by
  unfold readVariant
  constructor
  · intro h
    obtain ⟨members, hmembers, h⟩ := Pass.result_bind_eq_ok.mp h
    obtain ⟨given, hgiven, h⟩ := Pass.result_bind_eq_ok.mp h
    rw [Pass.result_liftM_eq_ok] at hgiven
    cases given with
    | none =>
      obtain ⟨_, ⟨⟩, h⟩ := Pass.result_bind_eq_ok.mp h
      obtain ⟨aliases, haliases, h⟩ := Pass.result_bind_eq_ok.mp h
      rw [Pass.result_liftM_eq_ok] at haliases
      exact ⟨members, none, aliases, hmembers, Or.inl ⟨hgiven, rfl⟩, haliases,
        (Except.ok.inj h).symm⟩
    | some s =>
      obtain ⟨default, hdefault, h⟩ := Pass.result_bind_eq_ok.mp h
      obtain ⟨aliases, haliases, h⟩ := Pass.result_bind_eq_ok.mp h
      rw [Pass.result_liftM_eq_ok] at hdefault haliases
      exact ⟨members, default, aliases, hmembers, Or.inr ⟨s, hgiven, hdefault⟩, haliases,
        (Except.ok.inj h).symm⟩
  · rintro ⟨members, default, aliases, hmembers, hdefault, haliases, rfl⟩
    refine Pass.result_bind_eq_ok.mpr ⟨members, hmembers, ?_⟩
    have hrest :
        (do return .variant members default (← readAliases core members e) : Pass Body).result =
          .ok (.variant members default aliases) :=
      Pass.result_bind_eq_ok.mpr ⟨aliases, Pass.result_liftM_eq_ok.mpr haliases, rfl⟩
    rcases hdefault with ⟨hgiven, rfl⟩ | ⟨s, hgiven, hdefault⟩
    · refine Pass.result_bind_eq_ok.mpr ⟨none, Pass.result_liftM_eq_ok.mpr hgiven, ?_⟩
      exact Pass.result_bind_eq_ok.mpr ⟨none, rfl, hrest⟩
    · refine Pass.result_bind_eq_ok.mpr ⟨some s, Pass.result_liftM_eq_ok.mpr hgiven, ?_⟩
      exact Pass.result_bind_eq_ok.mpr ⟨default, Pass.result_liftM_eq_ok.mpr hdefault, hrest⟩

theorem readMembers_of_readBody {kind : FieldKind} (hkind : kind.isGroup = true)
    (h : (readBody ctx nested kind core pos props e).result = .ok body) :
    (readFields nested (.inside core.window) "members" core.name e).result = .ok body.members := by
  cases kind with
  | bundle =>
    obtain ⟨members, aliases, hmembers, -, -, rfl⟩ := readBundle_eq_ok.mp h
    exact hmembers
  | variant =>
    obtain ⟨members, default, aliases, hmembers, -, -, rfl⟩ := readVariant_eq_ok.mp h
    exact hmembers
  | _ => cases hkind

theorem readAliases_of_childrenNamed (core : FieldCore) (members : List Field)
    (h : e.childrenNamed "alias" = []) :
    readAliases core members e = .ok [] := by
  rw [readAliases, h]
  rfl

/-- A group without aliases is read if its members are. -/
theorem exists_readBody {kind : FieldKind} (hkind : kind.isGroup = true) {members : List Field}
    (hmembers : (readFields nested (.inside core.window) "members" core.name e).result =
      .ok members)
    (hne : members ≠ []) (haliases : e.childrenNamed "alias" = [])
    (hdefault : kind = .variant → ∃ default, GivesDefault props core members default) :
    ∃ body, (readBody ctx nested kind core pos props e).result = .ok body ∧
      body.members = members := by
  have hnone := readAliases_of_childrenNamed core members haliases
  cases kind with
  | bundle =>
    exact ⟨.bundle members [], readBundle_eq_ok.mpr ⟨members, [], hmembers, hne, hnone, rfl⟩, rfl⟩
  | variant =>
    obtain ⟨default, hdefault⟩ := hdefault rfl
    exact ⟨.variant members default [],
      readVariant_eq_ok.mpr ⟨members, default, [], hmembers, hdefault, hnone, rfl⟩, rfl⟩
  | _ => cases hkind

end bodies

/-- A default member of some members is one of more members. -/
theorem readDefaultMember_of_headings {core : FieldCore} {fs fs' : List Field} {s : String}
    {default : Option Nat} (core' : FieldCore) (rest : List Field)
    (hheadings : fs'.map Field.heading = fs.map Field.heading)
    (h : readDefaultMember core fs s = .ok default) :
    ∃ default', readDefaultMember core' (fs' ++ rest) s = .ok default' := by
  have hlength : fs'.length = fs.length := by
    simpa only [List.length_map] using congrArg List.length hheadings
  have hfind : fs'.findIdx? (·.name == s) = fs.findIdx? (·.name == s) := by
    have hmap (gs : List Field) :
        gs.findIdx? (·.name == s) = (gs.map Field.heading).findIdx? (·.1 == s) := by
      rw [List.findIdx?_map]
      rfl
    rw [hmap, hmap, hheadings]
  unfold readDefaultMember at h ⊢
  split_ifs at h ⊢
  · exact ⟨none, rfl⟩
  · cases hint : Literal.int? s with
    | some i =>
      simp only [hint] at h
      dsimp only
      rw [List.length_append, hlength]
      split_ifs at h ⊢ with hneg hlt
      · exact ⟨none, rfl⟩
      · exact ⟨_, rfl⟩
      · omega
    | none =>
      simp only [hint] at h
      dsimp only
      rw [List.findIdx?_append, hfind]
      cases hfs : fs.findIdx? (·.name == s) with
      | some i => exact ⟨some i, rfl⟩
      | none => simp [hfs] at h

/-! ### What a group inherits -/

namespace Population

variable {setting : Setting} {p q r : Population} {eB eD mB : Element} {B : Field}
  {kind : FieldKind}

/-- No child that belongs to a group besides its properties is one of them. -/
theorem not_contains_of_isGroup (hkind : kind.isGroup = true) {tag : String}
    (htag : isFieldTag tag = true ∨ tag = "members" ∨ tag = "alias") :
    kind.properties.contains tag = false := by
  have hfields (k : FieldKind) : kind.properties.contains k.tag = false := by
    rcases FieldKind.isGroup_iff.mp hkind with rfl | rfl <;> cases k <;> decide
  have hparts : kind.properties.contains "members" = false ∧
      kind.properties.contains "alias" = false := by
    rcases FieldKind.isGroup_iff.mp hkind with rfl | rfl <;> decide
  rcases htag with htag | rfl | rfl
  · obtain ⟨k, hk⟩ := Option.isSome_iff_exists.mp htag
    have htag := List.find?_some hk
    rw [← beq_iff_eq.mp htag]
    exact hfields k
  · exact hparts.1
  · exact hparts.2

theorem filter_children_of_isGroup (hkind : kind.isGroup = true) (accept : String → Bool)
    (h : ∀ tag, accept tag = true → isFieldTag tag = true ∨ tag = "members" ∨ tag = "alias") :
    (eD.inheritFrom mB kind.properties).children.filter (fun c => accept c.tag) =
      mB.children.filter (fun c => accept c.tag) ++ eD.children.filter fun c => accept c.tag :=
  Element.filter_children_inheritFrom fun tag htag hnames =>
    absurd hnames (Bool.eq_false_iff.mp (not_contains_of_isGroup hkind (h tag htag)))

theorem childrenNamed_members (hkind : kind.isGroup = true) :
    (eD.inheritFrom mB kind.properties).childrenNamed "members" =
      mB.childrenNamed "members" ++ eD.childrenNamed "members" :=
  filter_children_of_isGroup hkind (· == "members") fun _ htag =>
    Or.inr (Or.inl (beq_iff_eq.mp htag))

theorem childrenNamed_alias (hkind : kind.isGroup = true) :
    (eD.inheritFrom mB kind.properties).childrenNamed "alias" =
      mB.childrenNamed "alias" ++ eD.childrenNamed "alias" :=
  filter_children_of_isGroup hkind (· == "alias") fun _ htag =>
    Or.inr (Or.inr (beq_iff_eq.mp htag))

/-- **The members that are read of an element over its base**: those of both if neither has a
wrapper, and else only those in the wrapper of one of them. -/
theorem memberElements_inheritFrom (eD mB : Element) (hkind : kind.isGroup = true) :
    (eD.inheritFrom mB kind.properties).memberElements =
      match mB.childrenNamed "members", eD.childrenNamed "members" with
      | [], [] => mB.memberElements ++ eD.memberElements
      | _ :: _, _ => mB.memberElements
      | [], _ :: _ => eD.memberElements := by
  unfold Element.memberElements
  rw [childrenNamed_members hkind]
  cases mB.childrenNamed "members" with
  | cons w ws => rfl
  | nil =>
    cases eD.childrenNamed "members" with
    | cons w ws => rfl
    | nil => exact filter_children_of_isGroup hkind isFieldTag fun _ htag => Or.inl htag

theorem givesDefault_inheritFrom {core coreB : FieldCore} {inherited own : List Field}
    {defaultB : Option Nat} (hB : GivesDefault (mB.props kind.properties) coreB B.members defaultB)
    (hheadings : inherited.map Field.heading = B.members.map Field.heading)
    (hown : ∃ given, (eD.props kind.properties).single "defaultMember" = .ok given ∧
      ∀ s, given = some s → ∃ default,
        readDefaultMember core (inherited ++ own) s = .ok default) :
    ∃ default, GivesDefault ((eD.inheritFrom mB kind.properties).props kind.properties) core
      (inherited ++ own) default := by
  obtain ⟨given, hgiven, hread⟩ := hown
  have hcontains := Props.contains_of_single hgiven
  unfold GivesDefault
  rw [Element.single_inheritFrom (by decide), hcontains]
  -- the default member of the declaration itself comes before that of the base
  cases given with
  | some s =>
    obtain ⟨default, hdefault⟩ := hread s rfl
    exact ⟨default, Or.inr ⟨s, hgiven, hdefault⟩⟩
  | none =>
    rw [if_neg (by decide)]
    rcases hB with ⟨hnone, -⟩ | ⟨s, hs, hdefault⟩
    · exact ⟨none, Or.inl ⟨hnone, rfl⟩⟩
    · obtain ⟨default, hdefault⟩ := readDefaultMember_of_headings core own hheadings hdefault
      exact ⟨default, Or.inr ⟨s, hs, hdefault⟩⟩

/-- The members of an accepted group are read from the elements that declare them. -/
theorem Accepted.reads (h : Accepted setting p eB mB B q)
    (hkind : FieldKind.ofTag? mB.tag = some kind) (hgroup : kind.isGroup = true) :
    (mB.childrenNamed "members").length ≤ 1 ∧
      (readField (p.context setting) ((p.context setting).depth eB)).Reads (.inside B.window)
        mB.memberElements B.members := by
  obtain ⟨-, hread, -⟩ := accepted_iff.mp h
  obtain ⟨kind', hkind', hcore, hbody, -⟩ := readMerged_eq_ok.mp hread
  obtain rfl : kind = kind' := Option.some.inj (hkind.symm.trans hkind')
  exact readMembers_eq_ok.mp (readMembers_of_readBody hgroup hbody)

theorem Accepted.givesDefault (h : Accepted setting p eB mB B q)
    (hkind : FieldKind.ofTag? mB.tag = some .variant) :
    ∃ default, GivesDefault (mB.props FieldKind.variant.properties) B.core B.members default := by
  obtain ⟨-, hread, -⟩ := accepted_iff.mp h
  obtain ⟨kind, hkind', -, hbody, -⟩ := readMerged_eq_ok.mp hread
  obtain rfl : .variant = kind := Option.some.inj (hkind.symm.trans hkind')
  obtain ⟨members, default, aliases, -, hdefault, -, hbody⟩ := readVariant_eq_ok.mp hbody
  rw [Field.members, hbody]
  exact ⟨default, hdefault⟩

/-- A group that reuses another one is accepted with at most one wrapper. -/
theorem Reuses.reads {mD : Element} {D : Field} {r' : Population} (h : Reuses setting r eD mB)
    (hD : Accepted setting r eD mD D r') (hkind : FieldKind.ofTag? eD.tag = some kind)
    (hgroup : kind.isGroup = true) :
    (mB.childrenNamed "members").length + (eD.childrenNamed "members").length ≤ 1 ∧
      (readField (r.context setting) ((r.context setting).depth eD)).Reads (.inside D.window)
        (eD.inheritFrom mB kind.properties).memberElements D.members := by
  obtain rfl := Except.ok.inj (hD.merge.symm.trans (h.merge hkind))
  obtain ⟨hlength, hreads⟩ := hD.reads hkind hgroup
  rw [childrenNamed_members hgroup, List.length_append] at hlength
  exact ⟨hlength, hreads⟩

/-- A group that reuses another one is accepted if all of its members can be read. -/
theorem Reuses.exists_accepted {core : FieldCore} {members : List Field}
    (h : Reuses setting r eD mB) (hkind : FieldKind.ofTag? eD.tag = some kind)
    (hgroup : kind.isGroup = true)
    (hcore : readCore (r.context setting) .inNamespace
      ((eD.inheritFrom mB kind.properties).props kind.properties)
      (eD.inheritFrom mB kind.properties) = .ok core)
    (hrole : core.semanticType.fits kind = true) (hfree : ∀ x ∈ r.scope.fields, x.1 ≠ core.name)
    (hwrapper : ((eD.inheritFrom mB kind.properties).childrenNamed "members").length ≤ 1)
    (hreads : (readField (r.context setting) ((r.context setting).depth eD)).Reads
      (.inside core.window) (eD.inheritFrom mB kind.properties).memberElements members)
    (hne : members ≠ [])
    (haliases : (eD.inheritFrom mB kind.properties).childrenNamed "alias" = [])
    (hdefault : kind = .variant → ∃ default,
      GivesDefault ((eD.inheritFrom mB kind.properties).props kind.properties) core members
        default) :
    ∃ r' D, Accepted setting r eD (eD.inheritFrom mB kind.properties) D r' ∧ D.core = core ∧
      D.members = members := by
  obtain ⟨body, hbody, hmembers⟩ :=
    exists_readBody hgroup (readMembers_eq_ok.mpr ⟨hwrapper, hreads⟩) hne haliases hdefault
  have hread : (readMerged (r.context setting) (readField (r.context setting)
      ((r.context setting).depth eD)) .inNamespace (eD.inheritFrom mB kind.properties)).result =
        .ok (.mk core body) :=
    readMerged_eq_ok.mpr ⟨kind, hkind, hcore, hbody, by rw [Field.core, hrole, Bool.or_true]⟩
  obtain ⟨fields, hinsert⟩ := exists_insertNamed (x := (core.name, r.catalogue.arena.size)) hfree
  exact ⟨_, .mk core body, accepted_iff.mpr ⟨h.merge hkind, hread, fields, hinsert, rfl⟩, rfl,
    hmembers⟩

/-- **The members of a group that reuses another one.** `inherited` and `own` are what the elements
that declare the members of the base and of the declaration are read as where it stands. If neither
has a wrapper, the members are those of the base and then its own. If one of them has, they are
those in the wrapper only, and if both have, the declaration is refused. -/
theorem members_of_reuse {core : FieldCore} {inherited own : List Field}
    (hB : Accepted setting p eB mB B q) (hreuses : Reuses setting r eD mB)
    (hkind : FieldKind.ofTag? eD.tag = some kind) (hgroup : kind.isGroup = true)
    (hcore : readCore (r.context setting) .inNamespace
      ((eD.inheritFrom mB kind.properties).props kind.properties)
      (eD.inheritFrom mB kind.properties) = .ok core)
    (hrole : core.semanticType.fits kind = true) (hfree : ∀ x ∈ r.scope.fields, x.1 ≠ core.name)
    (haliasB : mB.childrenNamed "alias" = []) (haliasD : eD.childrenNamed "alias" = [])
    (hdefault : kind = .variant → ∃ given,
      (eD.props kind.properties).single "defaultMember" = .ok given ∧
      ∀ s, given = some s → ∃ default,
        readDefaultMember core (inherited ++ own) s = .ok default)
    (hinherited : (readField (r.context setting) ((r.context setting).depth eD)).Reads
      (.inside core.window) mB.memberElements inherited)
    (hown : (readField (r.context setting) ((r.context setting).depth eD)).Reads
      (.inside core.window) eD.memberElements own)
    (hne : own ≠ []) :
    (mB.childrenNamed "members" = [] → eD.childrenNamed "members" = [] →
      ∃ r' D, Accepted setting r eD (eD.inheritFrom mB kind.properties) D r' ∧ D.core = core ∧
        D.members.map Field.heading = B.members.map Field.heading ++ own.map Field.heading) ∧
    (mB.childrenNamed "members" ≠ [] → eD.childrenNamed "members" = [] →
      ∀ mD D r', Accepted setting r eD mD D r' →
        D.members.map Field.heading = B.members.map Field.heading) ∧
    (mB.childrenNamed "members" = [] → eD.childrenNamed "members" ≠ [] →
      ∀ mD D r', Accepted setting r eD mD D r' →
        D.members.map Field.heading = own.map Field.heading) ∧
    (mB.childrenNamed "members" ≠ [] → eD.childrenNamed "members" ≠ [] →
      ∀ r', (addField setting r eD).result ≠ .ok r') := by
  have hkindB : FieldKind.ofTag? mB.tag = some kind := hreuses.tag ▸ hkind
  obtain ⟨-, hreadsB⟩ := hB.reads hkindB hgroup
  have hheadings := headings_eq_of_reads hinherited hreadsB
  have helements := memberElements_inheritFrom eD mB hgroup
  -- neither has a wrapper; the base has one; the declaration has one; both have one
  refine ⟨fun hdirectB hdirectD => ?_, fun hwrappedB _ mD D r' h => ?_,
    fun hdirectB hwrappedD mD D r' h => ?_, fun hwrappedB hwrappedD r' h => ?_⟩
  · rw [hdirectB, hdirectD] at helements
    have hreads : (readField (r.context setting) ((r.context setting).depth eD)).Reads
        (.inside core.window) (eD.inheritFrom mB kind.properties).memberElements
        (inherited ++ own) := by
      rw [helements]
      exact List.rel_append hinherited hown
    have hnowrapper : ((eD.inheritFrom mB kind.properties).childrenNamed "members").length ≤ 1 := by
      rw [childrenNamed_members hgroup, hdirectB, hdirectD]
      exact Nat.zero_le 1
    have hnoalias : (eD.inheritFrom mB kind.properties).childrenNamed "alias" = [] := by
      rw [childrenNamed_alias hgroup, haliasB, haliasD, List.append_nil]
    have hdefaultD (hvariant : kind = .variant) :
        ∃ default, GivesDefault ((eD.inheritFrom mB kind.properties).props kind.properties) core
          (inherited ++ own) default := by
      subst hvariant
      obtain ⟨defaultB, hdefaultB⟩ := hB.givesDefault hkindB
      exact givesDefault_inheritFrom hdefaultB hheadings (hdefault rfl)
    obtain ⟨r', D, h, hcoreD, hmembers⟩ := hreuses.exists_accepted hkind hgroup hcore hrole hfree
      hnowrapper hreads (List.append_ne_nil_of_right_ne_nil _ hne) hnoalias hdefaultD
    exact ⟨r', D, h, hcoreD, by rw [hmembers, List.map_append, hheadings]⟩
  · obtain ⟨w, ws, hw⟩ := List.exists_cons_of_ne_nil hwrappedB
    obtain ⟨-, hreads⟩ := hreuses.reads h hkind hgroup
    rw [helements, hw] at hreads
    exact headings_eq_of_reads hreads hreadsB
  · obtain ⟨w, ws, hw⟩ := List.exists_cons_of_ne_nil hwrappedD
    obtain ⟨-, hreads⟩ := hreuses.reads h hkind hgroup
    rw [helements, hdirectB, hw] at hreads
    exact headings_eq_of_reads hreads hown
  · obtain ⟨mD, D, h⟩ := exists_accepted h
    obtain ⟨hlength, -⟩ := hreuses.reads h hkind hgroup
    have hposB := List.length_pos_iff.mpr hwrappedB
    have hposD := List.length_pos_iff.mpr hwrappedD
    omega

/-! ### A bundle with one more member -/

/-- A member. -/
def octetElement (name : String) : Element :=
  ⟨"int", [("name", name), ("type", "uint8")], [], "", 2⟩

/-- A bundle with a member `a`, directly or in a wrapper. -/
def baseElement (wrapped : Bool) : Element :=
  ⟨"bundle", [("name", "B")],
    if wrapped then [⟨"members", [], [octetElement "a"], "", 2⟩] else [octetElement "a"], "", 1⟩

/-- A bundle that reuses it and has a member `c` of its own. -/
def extendedElement : Element :=
  ⟨"bundle", [("name", "D"), ("reuse", "B")], [octetElement "c"], "", 3⟩

/-- The root with the fields that the elements declare. -/
def rootWith (es : List Element) : Population :=
  (Growth.forEach (addField ⟨0, .little⟩) ⟨.root, ⟨.empty, []⟩⟩ es).population

theorem accepted_baseElement (wrapped : Bool) :
    ∃ B, Accepted ⟨0, .little⟩ (rootWith []) (baseElement wrapped) (baseElement wrapped) B
      (rootWith [baseElement wrapped]) ∧ B.members.map Field.heading = [("a", .int)] := by
  have hfield : ((rootWith [baseElement wrapped]).catalogue.arena.get? 0).map
      (fun f => f.members.map Field.heading) = some [("a", .int)] := by
    cases wrapped <;> decide +kernel
  obtain ⟨B, hB, hheadings⟩ := Option.map_eq_some_iff.mp hfield
  exact ⟨B, ⟨by cases wrapped <;> rfl, by cases wrapped <;> rfl, hB⟩, hheadings⟩

theorem reuses_extendedElement (wrapped : Bool) :
    Reuses ⟨0, .little⟩ (rootWith [baseElement wrapped]) extendedElement (baseElement wrapped) :=
  ⟨rfl, "B", rfl, by cases wrapped <;> rfl⟩

/-- What is read of a member where the base is declared. -/
theorem reads_octetElement (wrapped : Bool) {name : String} (hname : name = "a" ∨ name = "c") :
    ∃ fs, (readField ((rootWith [baseElement wrapped]).context ⟨0, .little⟩)
        (((rootWith [baseElement wrapped]).context ⟨0, .little⟩).depth extendedElement)).Reads
        (.inside .always) [octetElement name] fs ∧ fs.map Field.heading = [(name, .int)] := by
  cases wrapped <;> rcases hname with rfl | rfl <;> exact ⟨_, .cons rfl .nil, rfl⟩

/-- If the base has no wrapper, no member is lost. -/
theorem members_of_direct_base :
    ∃ mD D r', Accepted ⟨0, .little⟩ (rootWith [baseElement false]) extendedElement mD D r' ∧
      D.members.map Field.heading = [("a", .int), ("c", .int)] := by
  obtain ⟨B, hB, hheadings⟩ := accepted_baseElement false
  obtain ⟨inherited, hinherited, -⟩ := reads_octetElement false (Or.inl rfl)
  obtain ⟨own, hown, hc⟩ := reads_octetElement false (Or.inr rfl)
  have hne : own ≠ [] := by
    rintro rfl
    cases hc
  have hcore : readCore ((rootWith [baseElement false]).context ⟨0, .little⟩) .inNamespace
      ((extendedElement.inheritFrom (baseElement false) FieldKind.bundle.properties).props
        FieldKind.bundle.properties)
      (extendedElement.inheritFrom (baseElement false) FieldKind.bundle.properties) =
        .ok ⟨"D", "", "", .always, "D", .none, 3⟩ := rfl
  obtain ⟨r', D, hD, -, hmembers⟩ := (members_of_reuse hB (reuses_extendedElement false) rfl rfl
    hcore rfl (by decide +kernel) rfl rfl (fun h => nomatch h) hinherited hown hne).1 rfl rfl
  exact ⟨_, D, r', hD, by rw [hmembers, hheadings, hc]; rfl⟩

/-- If the base has a wrapper, the member that is declared without one is lost, although it can be
read. -/
theorem members_of_wrapped_base :
    ∃ B own mD D, Accepted ⟨0, .little⟩ (rootWith []) (baseElement true) (baseElement true) B
        (rootWith [baseElement true]) ∧
      B.members.map Field.heading = [("a", .int)] ∧
      Reuses ⟨0, .little⟩ (rootWith [baseElement true]) extendedElement (baseElement true) ∧
      (readField ((rootWith [baseElement true]).context ⟨0, .little⟩)
        (((rootWith [baseElement true]).context ⟨0, .little⟩).depth extendedElement)).Reads
        (.inside .always) extendedElement.memberElements own ∧
      own.map Field.heading = [("c", .int)] ∧
      Accepted ⟨0, .little⟩ (rootWith [baseElement true]) extendedElement mD D
        (rootWith [baseElement true, extendedElement]) ∧
      D.members.map Field.heading = [("a", .int)] := by
  obtain ⟨B, hB, hheadings⟩ := accepted_baseElement true
  obtain ⟨own, hown, hc⟩ := reads_octetElement true (Or.inr rfl)
  have hreuses := reuses_extendedElement true
  have hfield : ((rootWith [baseElement true, extendedElement]).catalogue.arena.get? 1).map
      (fun f => f.members.map Field.heading) = some [("a", .int)] := by
    decide +kernel
  obtain ⟨D, hD, hmembers⟩ := Option.map_eq_some_iff.mp hfield
  have hkind : FieldKind.ofTag? extendedElement.tag = some .bundle := rfl
  exact ⟨B, own, _, D, hB, hheadings, hreuses, hown, hc, ⟨hreuses.merge hkind, rfl, hD⟩, hmembers⟩

end Population

end WireSchema
