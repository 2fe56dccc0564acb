import WireSchema.Field.Validation
import WireSchema.Proofs.Field.Nesting
import WireSchema.Proofs.Finding.Candid

/-! # Checks of fields tell what they found

Function by function: the check of a field is strict (`Field.strict_check`), and the check of fields
that stand side by side is candid (`candid_checkEach`), as every failure among them is reported. -/

namespace WireSchema

variable {cx : CheckContext} {core : FieldCore} {siblings : Siblings} {fs : List Field}

/-! ### Parts of a field -/

theorem strict_checkRole (cx : CheckContext) (core : FieldCore) (target : FieldRef) :
    (checkRole cx core target).Strict := by
  unfold checkRole
  split
  · exact Pass.strict_pure ()
  · exact Pass.strict_require _ _

theorem strict_checkIntegral (cx : CheckContext) (core : FieldCore) (key : String) (f : Field) :
    (checkIntegral cx core key f).Strict := by
  unfold checkIntegral
  split
  · exact Pass.strict_pure ()
  · exact Pass.strict_require _ _

theorem strict_checkPrefixName (cx : CheckContext) (core : FieldCore) (siblings : Siblings)
    (key : String) (p : PrefixName) : (checkPrefixName cx core siblings key p).Strict := by
  unfold checkPrefixName
  cases p with
  | path r =>
    dsimp only
    split
    · exact Pass.strict_pure ()
    · exact strict_checkIntegral _ _ _ _
  | sibling name =>
    refine (Pass.strict_require _ _).bind fun _ => ?_
    split
    · exact Pass.strict_fail _
    · exact strict_checkIntegral _ _ _ _

theorem strict_checkLengthPrefix (cx : CheckContext) (core : FieldCore) (siblings : Siblings)
    (p : Option PrefixName) : (checkLengthPrefix cx core siblings p).Strict := by
  cases p with
  | none => exact Pass.strict_pure ()
  | some p => exact strict_checkPrefixName _ _ _ _ p

theorem strict_checkCondition (core : FieldCore) (siblings : Siblings) (f : OptionalField) :
    (checkCondition core siblings f).Strict := by
  unfold checkCondition
  split
  · exact Pass.strict_pure ()
  · exact Pass.strict_require _ _

theorem strict_checkPrefix {p : Option Prefix} {key : String}
    (h : ∀ f ∈ prefixInner p, ∀ siblings, (f.check cx siblings).Strict) :
    (checkPrefix cx core siblings key p).Strict := by
  rcases p with _ | p
  · rw [checkPrefix]
    exact Pass.strict_pure ()
  · cases p with
    | named p =>
      rw [checkPrefix]
      exact strict_checkPrefixName _ _ _ _ p
    | inline f =>
      rw [checkPrefix]
      exact (h f (by simp [prefixInner]) _).bind fun _ => strict_checkIntegral _ _ _ _

/-! ### Fields side by side -/

theorem candid_checkFresh (seen : List String) (f : Field) : (checkFresh seen f).Candid :=
  (Pass.strict_require _ _).candid_succeeds _

theorem candid_checkBitMembers (cx : CheckContext) (fs : List Field) :
    (checkBitMembers cx fs).Candid := by
  induction fs with
  | nil => exact Pass.candid_pure_true
  | cons f fs ih =>
    have hrest (ok : Bool) :
        (checkBitMembers cx fs >>= fun rest => pure (ok && rest)).Upholds ok :=
      Pass.Upholds.bind ih fun rest => Pass.upholds_pure _
    rw [checkBitMembers]
    split
    · exact Pass.candid_pure_true.bind hrest
    · exact ((Pass.strict_require _ _).candid_succeeds _).bind hrest

theorem candid_checkVariantVersions (cx : CheckContext) (core : FieldCore) (fs : List Field) :
    (checkVariantVersions cx core fs).Candid := by
  induction fs with
  | nil => exact Pass.candid_pure_true
  | cons f fs ih =>
    rw [checkVariantVersions]
    exact ((Pass.strict_require _ _).candid_succeeds _).bind fun ok =>
      Pass.Upholds.bind ih fun rest => Pass.upholds_pure _

theorem candid_checkEach_of {seen : List String}
    (h : ∀ f ∈ fs, ∀ siblings, (f.check cx siblings).Strict) :
    (checkEach cx siblings seen fs).Candid := by
  induction fs generalizing seen with
  | nil =>
    rw [checkEach]
    exact Pass.candid_pure_true
  | cons f fs ih =>
    rw [checkEach]
    refine (candid_checkFresh seen f).bind fun fresh => ?_
    refine Pass.Upholds.bind ((h f List.mem_cons_self siblings).candid_succeeds _) fun ok => ?_
    refine Pass.Upholds.bind (ih fun g hg => h g (List.mem_cons_of_mem _ hg)) fun rest => ?_
    exact Pass.upholds_pure _

/-! ### Fields -/

/-- **The check of a field succeeds only if nothing in the field is an error.** -/
theorem Field.strict_check (cx : CheckContext) (f : Field) :
    ∀ siblings, (f.check cx siblings).Strict := by
  induction f using nested_induction with
  | step f ih =>
    obtain ⟨core, body⟩ := f
    change ∀ f ∈ body.inner, _ at ih
    intro siblings
    cases body with
    | ref target bitLength =>
      rw [check]
      exact strict_checkRole cx core target
    | bundle members aliases =>
      rw [check]
      exact (candid_checkEach_of ih).strict_require _
    | bitfield endian length members =>
      rw [check]
      exact (candid_checkEach_of ih).strict_require_both (candid_checkBitMembers cx members) _
    | variant members default aliases =>
      rw [check]
      exact (candid_checkEach_of ih).strict_require_both
        (candid_checkVariantVersions cx core members) _
    | list element count c l el fixed =>
      simp only [Body.inner, List.mem_append] at ih
      have hc : (checkPrefix cx core siblings "countPrefix" c).Strict :=
        strict_checkPrefix fun f hf => ih f (Or.inr (Or.inl hf))
      have hl : (checkPrefix cx core siblings "lengthPrefix" l).Strict :=
        strict_checkPrefix fun f hf => ih f (Or.inr (Or.inr (Or.inl hf)))
      have hel : (checkPrefix cx core siblings "elemLengthPrefix" el).Strict :=
        strict_checkPrefix fun f hf => ih f (Or.inr (Or.inr (Or.inr hf)))
      have hprefixes := hc.bind fun _ => hl.bind fun _ => hel
      cases element with
      | inline e =>
        rw [check]
        exact (ih e (Or.inl (by simp [Part.inner])) _).bind fun _ => hprefixes
      | reference r =>
        rw [check]
        exact hprefixes
    | string s =>
      rw [check]
      exact strict_checkLengthPrefix cx core siblings s.lengthPrefix
    | data d =>
      rw [check]
      exact strict_checkLengthPrefix cx core siblings d.lengthPrefix
    | optional o =>
      rw [check]
      exact strict_checkCondition core siblings o
    | int | float | enum | set =>
      rw [check]
      exact Pass.strict_pure ()

/-- **The check of fields side by side says whether it found an error.** -/
theorem candid_checkEach (cx : CheckContext) (siblings : Siblings) (seen : List String)
    (fs : List Field) : (checkEach cx siblings seen fs).Candid :=
  candid_checkEach_of fun f _ => f.strict_check cx

theorem strict_checkOwned (cx : CheckContext) (owner : String) (fs : List Field) :
    (checkOwned cx owner fs).Strict :=
  (candid_checkEach _ _ _ _).strict_require _

end WireSchema
