import WireSchema.Proofs.Literal.Names
import WireSchema.Proofs.Namespace.OwnMembers
import WireSchema.Proofs.Schema.AliasNames

/-! # Default members of variants

The default member of a variant is looked up by its name when the variant is read, among the names
that members have by then (`readVariant_eq_ok`). A member that is a reference without a name takes
the name of its target later on, when the schema is linked, and cannot be the default member under
this name (`default_members_are_declared`). -/

namespace WireSchema

open Markup

/-! ### Reading -/

/-- The default member of a variant. -/
def Body.defaultMember? : Body → Option Nat
  | .variant _ default _ => default
  | _ => none

def Field.defaultMember? (f : Field) : Option Nat := f.body.defaultMember?

/-- The default member, if there is one, is one of the members. -/
def Body.DefaultIsMember (b : Body) : Prop := ∀ i, b.defaultMember? = some i → i < b.members.length

section
variable {ctx : Context} {nested : NestedReader} {core : FieldCore} {pos : Position}
  {props : Props} {e : Element} {members : List Field} {s name : String} {i : Nat}

theorem lt_of_readDefaultMember (h : readDefaultMember core members s = .ok (some i)) :
    i < members.length := by
  unfold readDefaultMember at h
  split_ifs at h
  · cases h
  · split at h
    · split_ifs at h with hneg hlt
      · cases h
      · cases h
        omega
    · split at h
      · rename_i hfound
        cases h
        exact (List.findIdx?_eq_some_iff_getElem.mp hfound).1
      · cases h

/-- A name is looked up among the names of the members. -/
theorem readDefaultMember_of_isName (h : Literal.isName name = true) (hnone : name ≠ "none") :
    readDefaultMember core members name = (members.findIdx? (·.name == name)).elim
      (.error (.invalid core.name (.defaultNotMember name))) fun i => .ok (some i) := by
  unfold readDefaultMember
  rw [if_neg (by simpa using hnone), Literal.int?_of_isName h]
  cases members.findIdx? (·.name == name) <;> simp

theorem GivesDefault.lt_length (h : GivesDefault props core members (some i)) :
    i < members.length := by
  rcases h with ⟨-, hnone⟩ | ⟨s, -, hread⟩
  · cases hnone
  · exact lt_of_readDefaultMember hread

section
variable {aliases : List Alias} (hmembers : (readFields nested (.inside core.window) "members"
    core.name e).result = .ok members)
  (hgiven : props.single "defaultMember" = .ok (some name)) (hname : Literal.isName name = true)
  (hnone : name ≠ "none")

include hmembers hgiven hname hnone

/-- A variant whose members can be read takes the first one that is declared with the name. -/
theorem readVariant_of_declared (haliases : readAliases core members e = .ok aliases)
    (hdeclared : ∃ m ∈ members, m.name = name) :
    ∃ i, members.findIdx? (·.name == name) = some i ∧
      (readVariant nested core props e).result = .ok (.variant members (some i) aliases) := by
  obtain ⟨i, hi⟩ : ∃ i, members.findIdx? (·.name == name) = some i := by
    rw [← Option.isSome_iff_exists, List.findIdx?_isSome, List.any_eq_true]
    exact hdeclared.imp fun m hm => ⟨hm.1, beq_iff_eq.mpr hm.2⟩
  refine ⟨i, hi, readVariant_eq_ok.mpr ⟨members, some i, aliases, hmembers, ?_, haliases, rfl⟩⟩
  exact Or.inr ⟨name, hgiven, by rw [readDefaultMember_of_isName hname hnone, hi, Option.elim_some]⟩

/-- A variant whose members can be read is refused if none of them is declared with the name. -/
theorem readVariant_of_undeclared (hundeclared : ∀ m ∈ members, m.name ≠ name) :
    (readVariant nested core props e).result =
      .error (.error (.invalid core.name (.defaultNotMember name))) := by
  have hfound : members.findIdx? (·.name == name) = none :=
    List.findIdx?_eq_none_iff.mpr fun m hm => by simpa using hundeclared m hm
  have hgiven' : (liftM (props.single "defaultMember") : Pass _).result = .ok (some name) := by
    rw [Pass.result_liftM_eq_ok, hgiven]
  unfold readVariant
  rw [Pass.result_bind_of_ok _ hmembers, Pass.result_bind_of_ok _ hgiven']
  refine Pass.result_bind_of_error _ (Pass.result_liftM_of_error ?_)
  rw [readDefaultMember_of_isName hname hnone, hfound, Option.elim_none]

theorem exists_readVariant_iff (haliases : readAliases core members e = .ok aliases) :
    (∃ body, (readVariant nested core props e).result = .ok body) ↔
      ∃ m ∈ members, m.name = name := by
  constructor
  · rintro ⟨body, hbody⟩
    by_contra hnot
    rw [readVariant_of_undeclared hmembers hgiven hname hnone
      fun m hm heq => hnot ⟨m, hm, heq⟩] at hbody
    cases hbody
  · intro hdeclared
    obtain ⟨i, -, hok⟩ :=
      readVariant_of_declared hmembers hgiven hname hnone haliases hdeclared
    exact ⟨_, hok⟩

end

/-- **The default member of a variant that is read is one of its members.** -/
theorem yields_defaultIsMember_readVariant :
    (readVariant nested core props e).Yields Body.DefaultIsMember := by
  intro body hbody i hi
  obtain ⟨members, default, aliases, -, hdefault, -, rfl⟩ := readVariant_eq_ok.mp hbody
  obtain rfl : default = some i := hi
  exact hdefault.lt_length

theorem yields_defaultIsMember_readBody (ctx : Context) (nested : NestedReader) (kind : FieldKind)
    (core : FieldCore) (pos : Position) (props : Props) (e : Element) :
    (readBody ctx nested kind core pos props e).Yields Body.DefaultIsMember := by
  have hinner : nested.GivesIn core.window fun _ => True := fun _ _ _ _ _ => trivial
  have hnone (h : kind ≠ .variant) :
      (readBody ctx nested kind core pos props e).Yields Body.DefaultIsMember := by
    refine (yields_inner_readBody hinner kind).imp fun body hbody i hi => ?_
    rw [← hbody.1] at h
    cases body with
    | variant => exact absurd rfl h
    | _ => cases hi
  cases kind with
  | variant => exact yields_defaultIsMember_readVariant
  | _ => exact hnone (by decide)

end

/-! ### Linking -/

@[simp] theorem Field.defaultMember?_mapRefs (g : FieldRef → FieldRef) (f : Field) :
    (f.mapRefs g).defaultMember? = f.defaultMember? := by
  obtain ⟨core, body⟩ := f
  cases body with
  | list element count c l el fixed => cases element <;> rfl
  | _ => rfl

@[simp] theorem Field.defaultMember?_complete (a : Arena) (f : Field) :
    (f.complete a).1.defaultMember? = f.defaultMember? := by
  obtain ⟨core, body⟩ := f
  cases body with
  | list element count c l el fixed =>
    cases element <;> simp [complete, defaultMember?, Field.body, Body.defaultMember?]
  | _ => simp [complete, defaultMember?, Field.body, Body.defaultMember?]

namespace Schema

variable {s : Schema} {p : Place} {g g' m m' : Field} {k : Nat} {name : String}

/-- A member that had no name when the field was read as `g` leads, in the linked field `g'`, to a
field of the name. -/
def NamesTarget (s : Schema) (g g' : Field) (name : String) : Prop :=
  ∃ (k : Nat) (m m' t : Field), g.members[k]? = some m ∧ g'.members[k]? = some m' ∧ m.name = "" ∧
    m'.ref?.bind s.arena.target? = some t ∧ t.name = name

section
variable (hg : s.fieldAt? p = some g) (hg' : s.link.1.fieldAt? p = some g')

include hg hg'

theorem members_of_link :
    g'.defaultMember? = g.defaultMember? ∧ g'.members.length = g.members.length := by
  obtain ⟨change, rfl⟩ := eq_complete_of_fieldAt? hg hg'
  constructor
  · rw [Field.defaultMember?_complete, Field.defaultMember?_mapRefs]
  · rw [Field.members_complete, Field.members_mapRefs, List.length_map, List.length_map]

theorem exists_getElem?_members_link (hm : g.members[k]? = some m) :
    ∃ m', g'.members[k]? = some m' := by
  have hlt := (List.getElem?_eq_some_iff.mp hm).1
  rw [← (members_of_link hg hg').2] at hlt
  exact ⟨_, List.getElem?_eq_getElem hlt⟩

variable (hm : g.members[k]? = some m) (hm' : g'.members[k]? = some m')

include hm hm'

/-- A member that was read without a name has one in the end only if it leads to a field of it. -/
theorem Built.exists_target_of_name (hs : s.Built) (hempty : m.name = "") (hne : m'.name ≠ "") :
    ∃ t, m'.ref?.bind s.link.1.arena.target? = some t ∧ m'.name = t.name := by
  have hp := fieldAt?_inner hg hm
  have hp' := fieldAt?_inner hg' hm'
  obtain ⟨change, heq⟩ := eq_complete_of_fieldAt? hp hp'
  obtain ⟨r, href⟩ : ∃ r, m'.ref? = some r := by
    by_contra hnot
    refine hne ?_
    rw [heq, Field.ref?_complete] at hnot
    rw [heq, Field.name, Field.core_complete_of_not_ref fun target bitLength hbody => hnot
      ⟨target, Field.ref?_eq_some.mpr ⟨bitLength, hbody⟩⟩, Field.core_mapRefs]
    exact hempty
  obtain ⟨bitLength, hbody⟩ := Field.ref?_eq_some.mp href
  have hcore := core_of_ref_link hp hp' hbody
  -- its site sees a target, so that the linked schema has one at the same place
  obtain ⟨u, hu⟩ : ∃ u, (s.seenFrom p.site).target? r = some u := by
    by_contra hnot
    rw [Option.eq_none_iff_forall_ne_some.mpr fun u hu => hnot ⟨u, hu⟩] at hcore
    exact hne ((congrArg FieldCore.name hcore).trans hempty)
  obtain ⟨id, hid, hu⟩ := Option.bind_eq_some_iff.mp hu
  obtain ⟨t, ht⟩ : ∃ t, s.link.1.arena.get? id = some t := by
    rw [← Option.ne_none_iff_exists', ne_eq, Arena.get?_eq_none_iff, s.size_arena_link,
      ← s.size_seenFrom p.site, not_le]
    exact Arena.lt_size_of_get? hu
  have htarget : s.link.1.arena.target? r = some t := by
    rw [Arena.target?, hid]
    exact ht
  exact ⟨t, by rw [href, Option.bind_some, htarget],
    hs.name_fieldAt?_link hp hp' href htarget hempty⟩

omit hm hm'

/-- **A member of a linked field has a name** if and only if one was declared with it, or one that
was declared without a name leads to a field that has it. -/
theorem Built.exists_member_iff (hs : s.Built) (hname : name ≠ "") :
    (∃ m' ∈ g'.members, m'.name = name) ↔
      (∃ m ∈ g.members, m.name = name) ∨ s.link.1.NamesTarget g g' name := by
  constructor
  · rintro ⟨m', hmem, rfl⟩
    obtain ⟨k, hm'⟩ := List.mem_iff_getElem?.mp hmem
    obtain ⟨m, hm⟩ := exists_getElem?_members_of_link hg hg' hm'
    by_cases hempty : m.name = ""
    · obtain ⟨t, ht, hsame⟩ := hs.exists_target_of_name hg hg' hm hm' hempty hname
      exact Or.inr ⟨k, m, m', t, hm, hm', hempty, ht, hsame.symm⟩
    · have hkept := (hs.name_of_named_member hg hg' hm hm' hempty).1
      exact Or.inl ⟨m, List.mem_of_getElem? hm, hkept.symm⟩
  · rintro (⟨m, hmem, rfl⟩ | ⟨k, m, m', t, hm, hm', hempty, ht, rfl⟩)
    · obtain ⟨k, hm⟩ := List.mem_iff_getElem?.mp hmem
      obtain ⟨m', hm'⟩ := exists_getElem?_members_link hg hg' hm
      exact ⟨m', List.mem_of_getElem? hm', (hs.name_of_named_member hg hg' hm hm' hname).1⟩
    · obtain ⟨r, href, htarget⟩ := Option.bind_eq_some_iff.mp ht
      exact ⟨m', List.mem_of_getElem? hm', hs.name_fieldAt?_link (fieldAt?_inner hg hm)
        (fieldAt?_inner hg' hm') href htarget hempty⟩

end

/-! ### Names of default members -/

/-- A variant that is read was read with its members and aliases, and a default member. -/
theorem exists_of_readMerged {ctx : Context} {nested : NestedReader} {pos : Position} {e : Element}
    (hread : (readMerged ctx nested pos e).result = .ok g) (hkind : g.kind = .variant) :
    (readFields nested (.inside g.core.window) "members" g.core.name e).result = .ok g.members ∧
      readAliases g.core g.members e = .ok g.aliases := by
  obtain ⟨kind, -, -, hbody, -⟩ := readMerged_eq_ok.mp hread
  have hinner : nested.GivesIn g.core.window fun _ => True := fun _ _ _ _ _ => trivial
  obtain ⟨hsame, -⟩ := yields_inner_readBody hinner kind _ hbody
  obtain rfl : kind = .variant := hsame.symm.trans hkind
  obtain ⟨members, default, aliases, hmembers, -, haliases, heq⟩ := readVariant_eq_ok.mp hbody
  obtain ⟨core, body⟩ := g
  obtain rfl : body = .variant members default aliases := heq
  exact ⟨hmembers, haliases⟩

/-- What a variant of the schema, which is `g` as it was read and `g'` in the linked schema, makes
of a name for its default member, whatever it was read from. -/
structure LooksUpDefault (s : Schema) (g g' : Field) (nested : NestedReader) (e : Element)
    (props : Props) (name : String) : Prop where
  /-- The first member that is declared with the name is taken, and has it in the linked schema. -/
  declared : (∃ m ∈ g.members, m.name = name) → ∃ i m',
    (readVariant nested g.core props e).result = .ok (.variant g.members (some i) g.aliases) ∧
    g'.members[i]? = some m' ∧ m'.name = name ∧ ∀ m ∈ g.members.take i, m.name ≠ name
  /-- The variant is refused if no member is declared with the name. -/
  undeclared : (∀ m ∈ g.members, m.name ≠ name) → (readVariant nested g.core props e).result =
    .error (.error (.invalid g.core.name (.defaultNotMember name)))
  /-- In the linked schema, members that were declared without a name may have it as well. -/
  linked : (∃ m' ∈ g'.members, m'.name = name) ↔
    (∃ m ∈ g.members, m.name = name) ∨ s.link.1.NamesTarget g g' name
  /-- So a name is taken if and only if a member has it in the linked schema, unless only such
  members have it. -/
  agree : ((∃ body, (readVariant nested g.core props e).result = .ok body) ↔
      ∃ m' ∈ g'.members, m'.name = name) ↔
    (∃ m ∈ g.members, m.name = name) ∨ ¬ s.link.1.NamesTarget g g' name

theorem Built.looksUpDefault (hs : s.Built) (hg : s.fieldAt? p = some g)
    (hg' : s.link.1.fieldAt? p = some g') (hkind : g.kind = .variant) {ctx : Context}
    {nested : NestedReader} {pos : Position} {e : Element}
    (hread : (readMerged ctx nested pos e).result = .ok g) {props : Props}
    (hgiven : props.single "defaultMember" = .ok (some name))
    (hname : Literal.isName name = true) (hnone : name ≠ "none") :
    s.LooksUpDefault g g' nested e props name := by
  obtain ⟨hmembers, haliases⟩ := exists_of_readMerged hread hkind
  have hempty := Literal.ne_empty_of_isName hname
  have hlinked := hs.exists_member_iff hg hg' hempty
  refine ⟨fun hdeclared => ?_, readVariant_of_undeclared hmembers hgiven hname hnone, hlinked, ?_⟩
  · obtain ⟨i, hfound, hok⟩ :=
      readVariant_of_declared hmembers hgiven hname hnone haliases hdeclared
    obtain ⟨hlt, hi, hfirst⟩ := List.findIdx?_eq_some_iff_getElem.mp hfound
    have hm : g.members[i]? = some g.members[i] := List.getElem?_eq_getElem hlt
    obtain ⟨m', hm'⟩ := exists_getElem?_members_link hg hg' hm
    have hsame : g.members[i].name = name := beq_iff_eq.mp hi
    refine ⟨i, m', hok, hm', ?_, fun m hmem => ?_⟩
    · rw [(hs.name_of_named_member hg hg' hm hm' (by rwa [hsame])).1, hsame]
    · obtain ⟨j, hj, rfl⟩ := List.mem_take_iff_getElem.mp hmem
      simpa using hfirst j (by omega)
  · rw [exists_readVariant_iff hmembers hgiven hname hnone haliases, hlinked, iff_self_or,
      imp_iff_or_not]

/-- **The default member of a variant is one that is declared with its name.** A variant that is
read has no default member or one of its members, and so has the variant that it is in the linked
schema. If it is to have a default member of a name, it is accepted if and only if a member is
declared with the name. This member has the name in the linked schema, but so may one that was
declared without a name and leads to a field of it; the variant is accepted just if a member has the
name in the linked schema, if and only if a member is declared with it or no such member has it. -/
theorem default_members_are_declared (s : Schema) (hs : s.Built) :
    (∀ nested core props e body, (readVariant nested core props e).result = .ok body →
      body.DefaultIsMember) ∧
    ∀ p g g', s.fieldAt? p = some g → s.link.1.fieldAt? p = some g' → g.kind = .variant →
      g.IsRead ∧ g.body.DefaultIsMember ∧ g'.body.DefaultIsMember ∧
        g'.defaultMember? = g.defaultMember? ∧
      ∀ ctx nested pos e, (readMerged ctx nested pos e).result = .ok g →
        ∀ props name, props.single "defaultMember" = .ok (some name) →
          Literal.isName name = true → name ≠ "none" →
          s.LooksUpDefault g g' nested e props name := by
  refine ⟨fun nested core props e body => yields_defaultIsMember_readVariant body,
    fun p g g' hg hg' hkind => ?_⟩
  have hcontains : s.Contains g := contains_iff_exists_fieldAt?.mpr ⟨p, hg⟩
  have hdefault : g.body.DefaultIsMember :=
    hs.forall_contains (yields_body_readMerged yields_defaultIsMember_readBody) hcontains
  obtain ⟨hsame, hlength⟩ := members_of_link hg hg'
  refine ⟨hs.forall_contains (fun ctx nested pos e f hf => ⟨ctx, nested, pos, e, hf⟩) hcontains,
    hdefault, fun i hi => ?_, hsame, fun ctx nested pos e hread props name => ?_⟩
  · exact lt_of_lt_of_eq (hdefault i (hsame.symm.trans hi)) hlength.symm
  · exact hs.looksUpDefault hg hg' hkind hread

/-- A document with a variant that has a reference without a name and an integer as members, and the
default member. -/
def variantDocument (default : List (String × String)) : Element :=
  ⟨"schema", [("name", "P")],
    [⟨"int", [("name", "T"), ("type", "uint8")], [], "", 2⟩,
      ⟨"variant", ("name", "V") :: default,
        [⟨"ref", [("field", "T")], [], "", 4⟩,
          ⟨"int", [("name", "y"), ("type", "uint8")], [], "", 5⟩], "", 3⟩],
    "", 1⟩

/-- The session after the document, and whether it was accepted. -/
def acceptDefault (default : List (String × String)) : Session × Bool :=
  (Session.start ⟨none, 0, none, false⟩).parseElement (variantDocument default)

/-- The variant takes its second member by its name. The first one has a name in the linked schema
as well. -/
theorem default_of_variantDocument :
    ∃ (s : Schema) (g g' : Field) (nested : NestedReader) (e : Element),
      (acceptDefault [("defaultMember", "y")]).1.schema = some s ∧
      s.link.1.fieldAt? ⟨.arena 1, []⟩ = some g' ∧ g.defaultMember? = some 1 ∧
      g'.members.map Field.name = ["T", "y"] ∧
      ∃ i m', (readVariant nested g.core ⟨[("defaultMember", "y")]⟩ e).result =
        .ok (.variant g.members (some i) g.aliases) ∧
        g'.members[i]? = some m' ∧ m'.name = "y" ∧ i < g.members.length := by
  have heval : ((acceptDefault [("defaultMember", "y")]).1.schema.bind fun s =>
      (s.fieldAt? ⟨.arena 1, []⟩).bind fun g => (s.link.1.fieldAt? ⟨.arena 1, []⟩).map fun g' =>
        (g.kind, g.defaultMember?, g.members.map Field.name, g'.members.map Field.name)) =
      some (.variant, some 1, ["", "y"], ["T", "y"]) := by decide +kernel
  simp only [Option.bind_eq_some_iff, Option.map_eq_some_iff, Prod.mk.injEq] at heval
  obtain ⟨s, hs, g, hg, g', hg', hkind, hdefault, hread, hlinked⟩ := heval
  have hbuilt : s.Built := (Session.reachable_after _ [.element (variantDocument
    [("defaultMember", "y")])]).built (by decide +kernel) s hs
  obtain ⟨⟨ctx, nested, pos, e, hmerged⟩, -, -, -, hall⟩ :=
    (default_members_are_declared s hbuilt).2 _ g g' hg hg' hkind
  have hlooks := hall ctx nested pos e hmerged ⟨[("defaultMember", "y")]⟩ "y" (by decide)
    (by decide) (by decide)
  have hy : "y" ∈ g.members.map Field.name := by
    rw [hread]
    decide
  obtain ⟨i, m', hok, hm', hname, -⟩ := hlooks.declared (List.mem_map.mp hy)
  have hvalid : i < g.members.length :=
    (default_members_are_declared s hbuilt).1 _ _ _ _ _ hok i rfl
  exact ⟨s, g, g', nested, e, hs, hg', hdefault, hlinked, i, m', hok, hm', hname, hvalid⟩

/-- Its first member cannot be the default member under the name that it has in the linked
schema. -/
theorem default_of_namelessMember :
    (acceptDefault []).2 = true ∧ (acceptDefault [("defaultMember", "T")]).2 = false ∧
    (acceptDefault [("defaultMember", "T")]).1.journal.diagnostics.map Diagnostic.message =
      #["\"V\": default member \"T\" is not a member"] ∧
    ∃ (s : Schema) (g' m' : Field), (acceptDefault []).1.schema = some s ∧
      s.link.1.fieldAt? ⟨.arena 1, []⟩ = some g' ∧ g'.kind = .variant ∧ m' ∈ g'.members ∧
      m'.name = "T" := by
  have heval : ((acceptDefault []).1.schema.bind fun s =>
      (s.link.1.fieldAt? ⟨.arena 1, []⟩).bind fun g' => g'.members.head?.map fun m' =>
        (g'.kind, m'.name)) = some (.variant, "T") := by decide +kernel
  simp only [Option.bind_eq_some_iff, Option.map_eq_some_iff, Prod.mk.injEq] at heval
  obtain ⟨s, hs, g', hg', m', hm', hkind, hname⟩ := heval
  exact ⟨by decide +kernel, by decide +kernel, by decide +kernel, s, g', m', hs, hg', hkind,
    List.mem_of_mem_head? hm', hname⟩

end Schema

end WireSchema
