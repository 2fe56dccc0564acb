import WireSchema.Field.Arena
import WireSchema.Finding.Finding

/-! # Completing fields

Once references are bound, a reference without a name or display name takes that of its target, and
an alias whose path does not lead to a member is dropped with a warning. Members come before the
aliases of the field they are in.
-/

namespace WireSchema

/-- The core with the names that it lacks taken from the target. -/
def FieldCore.nameAfter (core : FieldCore) (target : Option Field) : FieldCore :=
  match target with
  | none => core
  | some t =>
    { core with
      name := if core.name.isEmpty then t.core.name else core.name
      displayName := if core.displayName.isEmpty then t.core.displayName else core.displayName }

/-- The alias leads from the field to a member. -/
def Alias.leads (a : Arena) (f : Field) (other : Alias) : Bool :=
  (a.aliasTarget? f other.fieldPath).isSome

/-- The warning about an alias of the field `owner` that is dropped. -/
def Alias.dropped (owner : String) (other : Alias) : Finding :=
  ⟨other.line, .warning (.unknownAliasTarget owner other.name other.fieldPath)⟩

/-- The aliases that lead from the field to a member, and the warnings about the others. -/
def keepAliases (a : Arena) (f : Field) (aliases : List Alias) : List Alias × List Finding :=
  (aliases.filter (·.leads a f),
    (aliases.filter fun other => !other.leads a f).map (·.dropped f.name))

mutual

/-- The field with names and aliases settled, and the warnings about dropped aliases. -/
def Field.complete (a : Arena) : Field → Field × List Finding
  | .mk core (.ref target bitLength) =>
    (.mk (core.nameAfter (a.target? target)) (.ref target bitLength), [])
  | .mk core (.bitfield endian length members) =>
    let m := completeMembers a members
    (.mk core (.bitfield endian length m.1), m.2)
  | .mk core (.bundle members aliases) =>
    let m := completeMembers a members
    let k := keepAliases a (.mk core (.bundle m.1 aliases)) aliases
    (.mk core (.bundle m.1 k.1), m.2 ++ k.2)
  | .mk core (.variant members default aliases) =>
    let m := completeMembers a members
    let k := keepAliases a (.mk core (.variant m.1 default aliases)) aliases
    (.mk core (.variant m.1 default k.1), m.2 ++ k.2)
  | .mk core (.list (.inline e) count c l el fixed) =>
    let e := e.complete a
    let c := completePrefix a c
    let l := completePrefix a l
    let el := completePrefix a el
    (.mk core (.list (.inline e.1) count c.1 l.1 el.1 fixed), e.2 ++ (c.2 ++ (l.2 ++ el.2)))
  | .mk core (.list (.reference r) count c l el fixed) =>
    let c := completePrefix a c
    let l := completePrefix a l
    let el := completePrefix a el
    (.mk core (.list (.reference r) count c.1 l.1 el.1 fixed), c.2 ++ (l.2 ++ el.2))
  | .mk core (.int f) => (.mk core (.int f), [])
  | .mk core (.float f) => (.mk core (.float f), [])
  | .mk core (.enum f) => (.mk core (.enum f), [])
  | .mk core (.set f) => (.mk core (.set f), [])
  | .mk core (.string f) => (.mk core (.string f), [])
  | .mk core (.data f) => (.mk core (.data f), [])
  | .mk core (.optional f) => (.mk core (.optional f), [])

/-- `Field.complete` on each of the fields. -/
def completeMembers (a : Arena) : List Field → List Field × List Finding
  | [] => ([], [])
  | f :: fs =>
    let f := f.complete a
    let fs := completeMembers a fs
    (f.1 :: fs.1, f.2 ++ fs.2)

/-- `Field.complete` on a field inside of a prefix. -/
def completePrefix (a : Arena) : Option Prefix → Option Prefix × List Finding
  | none => (none, [])
  | some (.inline f) =>
    let f := f.complete a
    (some (.inline f.1), f.2)
  | some (.named p) => (some (.named p), [])

end

theorem completeMembers_fst (a : Arena) (fs : List Field) :
    (completeMembers a fs).1 = fs.map fun f => (f.complete a).1 := by
  induction fs with
  | nil => simp [completeMembers]
  | cons f fs ih => simp [completeMembers, ih]

theorem Field.externalRef_complete (a : Arena) (f : Field) :
    (f.complete a).1.externalRef = f.externalRef := by
  obtain ⟨core, body⟩ := f
  cases body with
  | ref target bitLength =>
    simp only [Field.complete, Field.externalRef, Field.core, FieldCore.nameAfter]
    split <;> rfl
  | list element count c l el fixed =>
    cases element <;> simp [Field.complete, Field.externalRef, Field.core]
  | _ => simp [Field.complete, Field.externalRef, Field.core]

namespace Arena

/-- Completes the field at a place. It is set aside meanwhile: its place holds a blank field. -/
def completeAt (a : Arena) (id : FieldId) : Arena × List Finding :=
  match a.get? id with
  | none => (a, [])
  | some f =>
    let rest := a.set id .blank
    let r := f.complete rest
    (rest.set id r.1, r.2)

/-- Completes the fields at the places in order, each with the ones before it completed. -/
def completeFrom (a : Arena) : List FieldId → Arena × List Finding
  | [] => (a, [])
  | id :: ids =>
    let r := a.completeAt id
    let s := r.1.completeFrom ids
    (s.1, r.2 ++ s.2)

/-- Completes every field in the order of the arena. -/
def complete (a : Arena) : Arena × List Finding := a.completeFrom (List.range a.size)

end Arena

end WireSchema
