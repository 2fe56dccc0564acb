import WireSchema.Proofs.Field.Inside
import WireSchema.Proofs.Field.Sources
import WireSchema.Proofs.Finding.Pass

/-! # What a field that passes its check has

Function by function: the success of a check is read as what it says of the field. Fields that stand
side by side pass if each of them does and no two have the same name (`checkEach_eq_ok`); hence the
members of a field that passes have different names, at any depth (`Field.Passes.distinct`). A field
without a name repeats none. A count or length is read from an integer (`Field.Passes.integral`),
and a reference with a role leads to a field that can have it (`Field.Passes.role`); references that
are not bound are passed over. -/

namespace WireSchema

variable {cx : CheckContext} {siblings : Siblings} {core : FieldCore} {fs : List Field}
  {f g t : Field} {key : String}

/-- The field passes its check among the siblings. -/
def Field.Passes (cx : CheckContext) (siblings : Siblings) (f : Field) : Prop :=
  (f.check cx siblings).result = .ok ()

/-- No field has the name of one before it, but for fields without a name. -/
def DistinctNames (fs : List Field) : Prop :=
  fs.Pairwise fun f g => g.name ≠ "" → f.name ≠ g.name

/-! ### Fields side by side -/

theorem checkFresh_eq_ok {seen : List String} (h : (checkFresh seen f).result = .ok true)
    (hname : f.name ≠ "") : f.name ∉ seen := by
  have hfresh := Pass.result_require_eq_ok.mp (Pass.result_succeeds_eq_ok.mp h)
  simpa [hname] using hfresh

theorem checkEach_eq_ok {seen : List String}
    (h : (checkEach cx siblings seen fs).result = .ok true) :
    (∀ f ∈ fs, f.Passes cx siblings) ∧ DistinctNames fs ∧
      ∀ f ∈ fs, f.name ≠ "" → f.name ∉ seen := by
  induction fs generalizing seen with
  | nil => exact ⟨by simp, List.Pairwise.nil, by simp⟩
  | cons f fs ih =>
    rw [checkEach] at h
    obtain ⟨fresh, hfresh, h⟩ := Pass.result_bind_eq_ok.mp h
    obtain ⟨ok, hok, h⟩ := Pass.result_bind_eq_ok.mp h
    obtain ⟨rest, hrest, h⟩ := Pass.result_bind_eq_ok.mp h
    rw [Pass.result_pure, Except.ok.injEq, Bool.and_eq_true, Bool.and_eq_true] at h
    obtain ⟨⟨rfl, rfl⟩, rfl⟩ := h
    obtain ⟨hpass, hdistinct, hseen⟩ := ih hrest
    refine ⟨List.forall_mem_cons.mpr ⟨Pass.result_succeeds_eq_ok.mp hok, hpass⟩,
      List.pairwise_cons.mpr ⟨fun g hg hname heq => ?_, hdistinct⟩,
      List.forall_mem_cons.mpr ⟨checkFresh_eq_ok hfresh, fun g hg hname hmem => ?_⟩⟩
    · exact hseen g hg hname (heq ▸ List.mem_cons_self)
    · exact hseen g hg hname (List.mem_cons_of_mem _ hmem)

theorem checkEach_of_checkOwned {owner : String}
    (h : (checkOwned cx owner fs).result = .ok ()) :
    (checkEach cx (siblingsIn fs) [] fs).result = .ok true := by
  obtain ⟨ok, hok, h⟩ := Pass.result_bind_eq_ok.mp h
  rwa [Pass.result_require_eq_ok.mp h] at hok

theorem checkOwned_eq_ok {owner : String} (h : (checkOwned cx owner fs).result = .ok ()) :
    ∀ f ∈ fs, f.Passes cx (siblingsIn fs) :=
  (checkEach_eq_ok (checkEach_of_checkOwned h)).1

theorem distinct_of_checkOwned {owner : String} (h : (checkOwned cx owner fs).result = .ok ()) :
    DistinctNames fs :=
  (checkEach_eq_ok (checkEach_of_checkOwned h)).2.1

theorem DistinctNames.nodup (h : DistinctNames fs) (hnamed : ∀ f ∈ fs, f.name ≠ "") :
    (fs.map Field.name).Nodup := by
  refine List.pairwise_map.mpr (List.Pairwise.imp_of_mem (fun _ hg hne => ?_) h)
  exact hne (hnamed _ hg)

/-! ### Roles and prefixes -/

theorem checkRole_eq_ok {target : FieldRef} (h : (checkRole cx core target).result = .ok ())
    (ht : (cx.arena.target? target).bind cx.arena.resolved = some t) :
    core.semanticType.fits t.kind = true := by
  unfold checkRole at h
  rw [ht] at h
  exact Pass.result_require_eq_ok.mp h

theorem checkIntegral_eq_ok (h : (checkIntegral cx core key f).result = .ok ())
    (ht : cx.arena.resolved f = some t) : t.kind = .int := by
  unfold checkIntegral at h
  rw [ht] at h
  exact beq_iff_eq.mp (Pass.result_require_eq_ok.mp h)

/-- The sibling that the prefix names is there, and what is read is an integer, if it is known. -/
structure Prefix.Integral (a : Arena) (siblings : Siblings) (p : Prefix) : Prop where
  sibling : ∀ name, p = .named (.sibling name) → ∃ f, siblings name = some f
  kind : ∀ f t, p.source? a siblings = some f → a.resolved f = some t → t.kind = .int

theorem checkPrefixName_eq_ok {p : PrefixName}
    (h : (checkPrefixName cx core siblings key p).result = .ok ()) :
    (Prefix.named p).Integral cx.arena siblings := by
  unfold checkPrefixName at h
  cases p with
  | path r =>
    refine ⟨nofun, fun f t hf ht => ?_⟩
    change cx.arena.target? r = some f at hf
    dsimp only at h
    rw [hf] at h
    exact checkIntegral_eq_ok h ht
  | sibling name =>
    obtain ⟨_, -, h⟩ := Pass.result_bind_eq_ok.mp h
    split at h
    · simp [Pass.fail] at h
    · rename_i f hf
      refine ⟨fun name' hname => ?_, fun f' t hf' ht => ?_⟩
      · cases hname
        exact ⟨f, hf⟩
      · change siblings name = some f' at hf'
        rw [hf, Option.some.injEq] at hf'
        exact checkIntegral_eq_ok h (hf' ▸ ht)

theorem checkLengthPrefix_eq_ok {p : Option PrefixName}
    (h : (checkLengthPrefix cx core siblings p).result = .ok ()) :
    ∀ q ∈ p.toList.map Prefix.named, q.Integral cx.arena siblings := by
  cases p with
  | none => simp
  | some p =>
    simp only [Option.toList_some, List.map_cons, List.map_nil, List.forall_mem_singleton]
    exact checkPrefixName_eq_ok h

theorem checkPrefix_eq_ok {p : Option Prefix}
    (h : (checkPrefix cx core siblings key p).result = .ok ()) :
    (∀ f ∈ prefixInner p, f.Passes cx noSiblings) ∧
      ∀ q ∈ p.toList, q.Integral cx.arena siblings := by
  rcases p with _ | p
  · simp [prefixInner]
  · rw [Option.toList_some, List.forall_mem_singleton]
    cases p with
    | named p =>
      rw [checkPrefix] at h
      exact ⟨fun f hf => absurd hf List.not_mem_nil, checkPrefixName_eq_ok h⟩
    | inline f =>
      rw [checkPrefix] at h
      obtain ⟨_, hf, h⟩ := Pass.result_bind_eq_ok.mp h
      refine ⟨List.forall_mem_singleton.mpr hf, fun name hname => ?_, fun f' t hf' ht => ?_⟩
      · cases hname
      · cases hf'
        exact checkIntegral_eq_ok h ht

/-! ### Fields -/

namespace Field

/-- The element and the prefixes of a list that passes. -/
theorem Passes.of_list {element : Part} {count : Option Nat} {c l el : Option Prefix} {fixed : Bool}
    (h : (Field.mk core (.list element count c l el fixed)).Passes cx siblings) :
    (∀ g ∈ element.inner, g.Passes cx noSiblings) ∧
      (checkPrefix cx core siblings "countPrefix" c).result = .ok () ∧
      (checkPrefix cx core siblings "lengthPrefix" l).result = .ok () ∧
      (checkPrefix cx core siblings "elemLengthPrefix" el).result = .ok () := by
  obtain ⟨helement, hprefixes⟩ : (∀ g ∈ element.inner, g.Passes cx noSiblings) ∧
      (checkPrefix cx core siblings "countPrefix" c >>= fun _ =>
        checkPrefix cx core siblings "lengthPrefix" l >>= fun _ =>
          checkPrefix cx core siblings "elemLengthPrefix" el).result = .ok () := by
    unfold Passes at h
    cases element with
    | reference r =>
      rw [check] at h
      exact ⟨fun g hg => absurd hg List.not_mem_nil, h⟩
    | inline e =>
      rw [check] at h
      obtain ⟨_, he, h⟩ := Pass.result_bind_eq_ok.mp h
      exact ⟨List.forall_mem_singleton.mpr he, h⟩
  obtain ⟨_, hc, h⟩ := Pass.result_bind_eq_ok.mp hprefixes
  obtain ⟨_, hl, hel⟩ := Pass.result_bind_eq_ok.mp h
  exact ⟨helement, hc, hl, hel⟩

/-- **Members of a field that passes have different names, and the fields inside of it pass**: each
member among the members, and what is inside of a list alone. -/
theorem Passes.inner (h : f.Passes cx siblings) :
    DistinctNames f.members ∧ ∀ g ∈ f.inner, g.Passes cx (siblingsIn f.members) := by
  obtain ⟨core, body⟩ := f
  have hnone (hmembers : body.members = []) : DistinctNames (Field.mk core body).members := by
    rw [members, Field.body, hmembers]
    exact List.Pairwise.nil
  have hmembers {ms : List Field} (hms : (checkEach cx (siblingsIn ms) [] ms).result = .ok true) :
      DistinctNames ms ∧ ∀ g ∈ ms, g.Passes cx (siblingsIn ms) :=
    ⟨(checkEach_eq_ok hms).2.1, (checkEach_eq_ok hms).1⟩
  cases body with
  | bundle ms aliases =>
    rw [Passes, check] at h
    obtain ⟨ok, hok, h⟩ := Pass.result_bind_eq_ok.mp h
    rw [Pass.result_require_eq_ok.mp h] at hok
    exact hmembers hok
  | bitfield endian length ms =>
    rw [Passes, check] at h
    obtain ⟨ok, hok, h⟩ := Pass.result_bind_eq_ok.mp h
    obtain ⟨fixed, -, h⟩ := Pass.result_bind_eq_ok.mp h
    rw [((Bool.and_eq_true _ _).mp (Pass.result_require_eq_ok.mp h)).1] at hok
    exact hmembers hok
  | variant ms default aliases =>
    rw [Passes, check] at h
    obtain ⟨ok, hok, h⟩ := Pass.result_bind_eq_ok.mp h
    obtain ⟨same, -, h⟩ := Pass.result_bind_eq_ok.mp h
    rw [((Bool.and_eq_true _ _).mp (Pass.result_require_eq_ok.mp h)).1] at hok
    exact hmembers hok
  | list element count c l el fixed =>
    obtain ⟨helement, hc, hl, hel⟩ := h.of_list
    refine ⟨hnone rfl, fun g hg => ?_⟩
    simp only [inner, Field.body, Body.inner, List.mem_append] at hg
    rcases hg with hg | hg | hg | hg
    · exact helement g hg
    · exact (checkPrefix_eq_ok hc).1 g hg
    · exact (checkPrefix_eq_ok hl).1 g hg
    · exact (checkPrefix_eq_ok hel).1 g hg
  | int | float | enum | set | string | data | ref | optional =>
    exact ⟨hnone rfl, fun g hg => absurd hg List.not_mem_nil⟩

/-- **Counts and lengths of a field that passes are read from integers.** -/
theorem Passes.integral (h : f.Passes cx siblings) :
    ∀ p ∈ f.body.prefixes, p.Integral cx.arena siblings := by
  obtain ⟨core, body⟩ := f
  change ∀ p ∈ body.prefixes, _
  cases body with
  | string s =>
    rw [Passes, check] at h
    exact checkLengthPrefix_eq_ok h
  | data d =>
    rw [Passes, check] at h
    exact checkLengthPrefix_eq_ok h
  | list element count c l el fixed =>
    obtain ⟨-, hc, hl, hel⟩ := h.of_list
    intro p hp
    simp only [Body.prefixes, List.mem_append] at hp
    rcases hp with hp | hp | hp
    · exact (checkPrefix_eq_ok hc).2 p hp
    · exact (checkPrefix_eq_ok hl).2 p hp
    · exact (checkPrefix_eq_ok hel).2 p hp
  | _ => exact fun p hp => absurd hp List.not_mem_nil

/-- **A reference that passes leads to a field that can have its role.** -/
theorem Passes.role {r : FieldRef} (h : f.Passes cx siblings) (href : f.ref? = some r)
    (ht : cx.arena.resolved f = some t) : f.core.semanticType.fits t.kind = true := by
  have htarget := Arena.resolved_target href ht
  obtain ⟨core, body⟩ := f
  obtain ⟨bitLength, hbody⟩ := ref?_eq_some.mp href
  change body = _ at hbody
  subst hbody
  rw [Passes, check] at h
  exact checkRole_eq_ok h htarget

/-- **In a field that passes, members that stand side by side have different names**, at any
depth. -/
theorem Passes.distinct (h : f.Passes cx siblings) :
    f.Throughout fun body => DistinctNames body.members := by
  induction f using nested_induction generalizing siblings with
  | step f ih => exact throughout_iff.mpr ⟨h.inner.1, fun g hg => ih g hg (h.inner.2 g hg)⟩

end Field

end WireSchema
