import WireSchema.Proofs.Field.Checking
import WireSchema.Proofs.Namespace.Nesting
import WireSchema.Schema.Validation

/-! # Checks of a schema tell what they found

Messages, interfaces, frames and layers are checked strictly, and a namespace reports every failure
in it. Together with the check of the numbers of messages this makes the check of a schema candid,
and so are all the checks inside of it (`NestedCheck.candid`). -/

namespace WireSchema

variable {cx : CheckContext}

/-! ### Parts of a namespace -/

theorem Layer.strict_check (cx : CheckContext) (interfaceFields : List String) (frame : String)
    (l : Layer) : (l.check cx interfaceFields frame).Strict := by
  unfold check
  dsimp only
  -- a field inside, a value of the interface and the kind of the field are checked in this order
  split
  · refine (Field.strict_check cx _ _).bind fun _ => ?_
    split
    · refine (Pass.strict_require _ _).bind fun _ => ?_
      split
      · exact Pass.strict_pure ()
      · exact Pass.strict_require _ _
    · split
      · exact Pass.strict_pure ()
      · exact Pass.strict_require _ _
  · split
    · refine (Pass.strict_require _ _).bind fun _ => ?_
      split
      · exact Pass.strict_pure ()
      · exact Pass.strict_require _ _
    · split
      · exact Pass.strict_pure ()
      · exact Pass.strict_require _ _

theorem Frame.candid_checkLayers (cx : CheckContext) (interfaceFields : List String)
    (frame : String) (ls : List Layer) : (checkLayers cx interfaceFields frame ls).Candid := by
  induction ls with
  | nil => exact Pass.candid_pure_true
  | cons l ls ih =>
    rw [checkLayers]
    exact ((l.strict_check cx interfaceFields frame).candid_succeeds _).bind fun ok =>
      Pass.Upholds.bind ih fun rest => Pass.upholds_pure _

theorem Frame.strict_check (cx : CheckContext) (interfaceFields : List String) (f : Frame) :
    (f.check cx interfaceFields).Strict :=
  (candid_checkLayers _ _ _ _).strict_require _

theorem Interface.strict_check (cx : CheckContext) (i : Interface) : (i.check cx).Strict :=
  (Pass.strict_require _ _).bind fun _ => strict_checkOwned _ _ _

theorem Message.strict_check (cx : CheckContext) (platforms : List String)
    (hasInterface : String → Bool) (m : Message) : (m.check cx platforms hasInterface).Strict := by
  have hfields := strict_checkOwned cx m.externalRef m.fields
  unfold check
  dsimp only
  split
  · refine (Pass.strict_fail _).bind fun _ => ?_
    split
    · exact (Pass.strict_require _ _).bind fun _ => hfields
    · exact hfields
  · split
    · exact (Pass.strict_require _ _).bind fun _ => hfields
    · exact hfields

/-! ### Namespaces -/

theorem Namespace.candid_checkAll {α : Type} {line : α → Nat} {check : α → Pass Unit}
    (h : ∀ x, (check x).Strict) (xs : List α) : (checkAll line check xs).Candid := by
  induction xs with
  | nil => exact Pass.candid_pure_true
  | cons x xs ih =>
    rw [checkAll]
    exact ((h x).candid_succeeds _).bind fun ok =>
      Pass.Upholds.bind ih fun rest => Pass.upholds_pure _

theorem Namespace.candid_checkIn_of {scope : SchemaScope} {ns : List Namespace}
    (h : ∀ n ∈ ns, (n.check cx scope).Candid) : (checkIn cx scope ns).Candid := by
  induction ns with
  | nil =>
    rw [checkIn]
    exact Pass.candid_pure_true
  | cons n ns ih =>
    rw [checkIn]
    exact (h n List.mem_cons_self).bind fun ok =>
      Pass.Upholds.bind (ih fun m hm => h m (List.mem_cons_of_mem _ hm)) fun rest =>
        Pass.upholds_pure _

/-- **The check of a namespace says whether it found an error** in it or in one nested in it. -/
theorem Namespace.candid_check (cx : CheckContext) (scope : SchemaScope) (ns : Namespace) :
    (ns.check cx scope).Candid := by
  induction ns using nested_induction with
  | step ns ih =>
    obtain ⟨name, externalRef, description, fields, interfaces, messages, frames, namespaces⟩ :=
      ns
    rw [check]
    refine (candid_checkAll (fun f => f.strict_check cx _) _).bind fun fieldsOk => ?_
    refine Pass.Upholds.bind (candid_checkAll (Interface.strict_check cx) _) fun interfacesOk => ?_
    refine Pass.Upholds.bind (candid_checkAll (Message.strict_check cx _ _) _) fun messagesOk => ?_
    refine Pass.Upholds.bind (candid_checkAll (Frame.strict_check cx _) _) fun framesOk => ?_
    refine Pass.Upholds.bind (candid_checkIn_of ih) fun nestedOk => ?_
    exact Pass.upholds_pure _

/-! ### Schemas -/

namespace Schema

theorem candid_checkIds (seen : List (Int × String)) (ms : List Message) :
    (checkIds seen ms).Candid := by
  induction ms generalizing seen with
  | nil => exact Pass.candid_pure_true
  | cons m ms ih =>
    rw [checkIds]
    split
    · exact ih seen
    · split
      · exact ih _
      · exact (ih seen).report _ _

theorem candid_checkMessageIds (s : Schema) : s.checkMessageIds.Candid := by
  unfold checkMessageIds
  split_ifs
  · exact Pass.candid_pure_true
  · exact candid_checkIds _ _

/-- **The check of a schema says whether it found an error.** -/
theorem candid_check (s : Schema) (versionDependentCode : Bool) :
    (s.check versionDependentCode).Candid :=
  (Namespace.candid_check _ _ _).bind fun _ =>
    Pass.Upholds.bind s.candid_checkMessageIds fun _ => Pass.upholds_pure _

end Schema

/-- The checks that the check of a schema consists of, each with the report of its failure. -/
inductive NestedCheck : Pass Bool → Prop
  | schema (s : Schema) (versionDependentCode : Bool) : NestedCheck (s.check versionDependentCode)
  | messageIds (s : Schema) : NestedCheck s.checkMessageIds
  | scope (cx : CheckContext) (whole : SchemaScope) (ns : Namespace) :
    NestedCheck (ns.check cx whole)
  | interface (cx : CheckContext) (i : Interface) : NestedCheck ((i.check cx).succeeds i.line)
  | message (cx : CheckContext) (platforms : List String) (hasInterface : String → Bool)
      (m : Message) : NestedCheck ((m.check cx platforms hasInterface).succeeds m.line)
  | frame (cx : CheckContext) (interfaceFields : List String) (f : Frame) :
    NestedCheck ((f.check cx interfaceFields).succeeds f.line)
  | layer (cx : CheckContext) (interfaceFields : List String) (frame : String) (l : Layer) :
    NestedCheck ((l.check cx interfaceFields frame).succeeds l.line)
  | field (cx : CheckContext) (siblings : Siblings) (f : Field) :
    NestedCheck ((f.check cx siblings).succeeds f.core.line)
  | sideBySide (cx : CheckContext) (siblings : Siblings) (seen : List String) (fs : List Field) :
    NestedCheck (checkEach cx siblings seen fs)
  | bitMembers (cx : CheckContext) (fs : List Field) : NestedCheck (checkBitMembers cx fs)
  | variantVersions (cx : CheckContext) (core : FieldCore) (fs : List Field) :
    NestedCheck (checkVariantVersions cx core fs)

/-- **Every check says whether it found an error.** -/
theorem NestedCheck.candid {p : Pass Bool} (h : NestedCheck p) : p.Candid := by
  cases h with
  | schema s versionDependentCode => exact s.candid_check _
  | messageIds s => exact s.candid_checkMessageIds
  | scope cx whole ns => exact ns.candid_check cx whole
  | interface cx i => exact (i.strict_check cx).candid_succeeds _
  | message cx platforms hasInterface m =>
    exact (m.strict_check cx platforms hasInterface).candid_succeeds _
  | frame cx interfaceFields f => exact (f.strict_check cx interfaceFields).candid_succeeds _
  | layer cx interfaceFields frame l =>
    exact (l.strict_check cx interfaceFields frame).candid_succeeds _
  | field cx siblings f => exact (f.strict_check cx siblings).candid_succeeds _
  | sideBySide cx siblings seen fs => exact candid_checkEach cx siblings seen fs
  | bitMembers cx fs => exact candid_checkBitMembers cx fs
  | variantVersions cx core fs => exact candid_checkVariantVersions cx core fs

end WireSchema
