import WireSchema.Field.Declaration.Indirect
import WireSchema.Field.Length

/-! # Checking fields

The checks that need bound references: fields of one list have different names, prefixes are
integers, conditions name siblings, members of bitfields have a fixed form, and the role of a
reference fits its target. A field that is not bound has been reported when references were bound,
and is passed over. Every failure inside a field is reported, and the field is refused.
-/

namespace WireSchema

/-- What the checks look at besides the field. -/
structure CheckContext where
  arena : Arena
  versionDependentCode : Bool

/-- The field with a name among those that stand side by side. -/
abbrev Siblings := String → Option Field

/-- A field without siblings. -/
def noSiblings : Siblings := fun _ => none

/-- The fields of a list as siblings. -/
def siblingsIn (fields : List Field) : Siblings := fun name => fields.find? (·.name == name)

/-- A role that a reference has has to fit the field it leads to. -/
def checkRole (cx : CheckContext) (core : FieldCore) (target : FieldRef) : Pass Unit :=
  match (cx.arena.target? target).bind cx.arena.resolved with
  | none => pure ()
  | some t =>
    Pass.require (core.semanticType.fits t.kind)
      (.invalid core.name (.unfitRole core.semanticType t.kind))

/-- A count or length is read from an integer. -/
def checkIntegral (cx : CheckContext) (core : FieldCore) (key : String) (source : Field) :
    Pass Unit :=
  match cx.arena.resolved source with
  | none => pure ()
  | some f => Pass.require (f.kind == .int) (.prefixConflict core.name (.notIntegral key f.kind))

/-- A named prefix leads to an integer other than the field itself. -/
def checkPrefixName (cx : CheckContext) (core : FieldCore) (siblings : Siblings) (key : String) :
    PrefixName → Pass Unit
  | .path r =>
    match cx.arena.target? r with
    | none => pure ()
    | some f => checkIntegral cx core key f
  | .sibling name => do
    Pass.require (name != core.name) (.prefixConflict core.name (.itself key))
    match siblings name with
    | none => Pass.fail (.prefixConflict core.name (.unknownSibling key name))
    | some f => checkIntegral cx core key f

/-- The prefix of a text or of octets, if it has one. -/
def checkLengthPrefix (cx : CheckContext) (core : FieldCore) (siblings : Siblings) :
    Option PrefixName → Pass Unit
  | none => pure ()
  | some p => checkPrefixName cx core siblings "lengthPrefix" p

/-- The sibling that a condition begins with is another field. -/
def checkCondition (core : FieldCore) (siblings : Siblings) (f : OptionalField) : Pass Unit :=
  match f.cond.bind conditionSibling? with
  | none => pure ()
  | some name =>
    Pass.require (name != core.name && (siblings name).isSome)
      (.invalid core.name (.unknownCondition name))

/-- Members of a bitfield lead to integers, enumerations and sets. -/
def checkBitMembers (cx : CheckContext) : List Field → Pass Bool
  | [] => pure true
  | m :: ms => do
    let ok ←
      match cx.arena.resolved m with
      | none => pure true
      | some t =>
        (Pass.require (t.kind == .int || t.kind == .enum || t.kind == .set)
          (.bitfieldMemberKind m.name t.kind)).succeeds m.core.line
    let rest ← checkBitMembers cx ms
    return ok && rest

/-- Where code depends on the version, members of a variant do not come later than the variant. -/
def checkVariantVersions (cx : CheckContext) (core : FieldCore) : List Field → Pass Bool
  | [] => pure true
  | m :: ms => do
    let later := cx.versionDependentCode && m.isVersionDependent &&
      m.window.since != core.window.since
    let ok ← (Pass.require (!later)
      (.versionDependentMember core.name m.name)).succeeds m.core.line
    let rest ← checkVariantVersions cx core ms
    return ok && rest

/-- A name that fields before it have not; a field without a name repeats none. -/
def checkFresh (seen : List String) (f : Field) : Pass Bool :=
  (Pass.require (f.name.isEmpty || !seen.contains f.name)
    (.duplicateName .field f.name)).succeeds f.core.line

mutual

/-- Checks a field and the fields inside it. -/
def Field.check (cx : CheckContext) (siblings : Siblings) : Field → Pass Unit
  | .mk core (.ref target _) => checkRole cx core target
  | .mk core (.bundle members _) => do
    let ok ← checkEach cx (siblingsIn members) [] members
    Pass.require ok (.invalidMembers core.name)
  | .mk core (.bitfield _ _ members) => do
    let ok ← checkEach cx (siblingsIn members) [] members
    let fixed ← checkBitMembers cx members
    Pass.require (ok && fixed) (.invalidMembers core.name)
  | .mk core (.variant members _ _) => do
    let ok ← checkEach cx (siblingsIn members) [] members
    let same ← checkVariantVersions cx core members
    Pass.require (ok && same) (.invalidMembers core.name)
  | .mk core (.list (.inline e) _ c l el _) => do
    e.check cx noSiblings
    checkPrefix cx core siblings "countPrefix" c
    checkPrefix cx core siblings "lengthPrefix" l
    checkPrefix cx core siblings "elemLengthPrefix" el
  | .mk core (.list (.reference _) _ c l el _) => do
    checkPrefix cx core siblings "countPrefix" c
    checkPrefix cx core siblings "lengthPrefix" l
    checkPrefix cx core siblings "elemLengthPrefix" el
  | .mk core (.string s) => checkLengthPrefix cx core siblings s.lengthPrefix
  | .mk core (.data d) => checkLengthPrefix cx core siblings d.lengthPrefix
  | .mk core (.optional o) => checkCondition core siblings o
  | .mk _ (.int _) => pure ()
  | .mk _ (.float _) => pure ()
  | .mk _ (.enum _) => pure ()
  | .mk _ (.set _) => pure ()

/-- Checks fields that stand side by side; the flag says that none failed. -/
def checkEach (cx : CheckContext) (siblings : Siblings) (seen : List String) :
    List Field → Pass Bool
  | [] => pure true
  | f :: fs => do
    let fresh ← checkFresh seen f
    let ok ← (f.check cx siblings).succeeds f.core.line
    let rest ← checkEach cx siblings (f.name :: seen) fs
    return fresh && ok && rest

/-- Checks the prefix of a list. -/
def checkPrefix (cx : CheckContext) (core : FieldCore) (siblings : Siblings) (key : String) :
    Option Prefix → Pass Unit
  | none => pure ()
  | some (.named p) => checkPrefixName cx core siblings key p
  | some (.inline f) => do
    f.check cx noSiblings
    checkIntegral cx core key f

end

/-- Checks the fields that a message or interface owns. -/
def checkOwned (cx : CheckContext) (owner : String) (fields : List Field) : Pass Unit := do
  let ok ← checkEach cx (siblingsIn fields) [] fields
  Pass.require ok (.invalidMembers owner)

end WireSchema
