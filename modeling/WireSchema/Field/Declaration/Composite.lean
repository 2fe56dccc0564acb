import WireSchema.Field.Declaration.Context
import WireSchema.Field.Length

/-! # Declarations of composite fields

Bitfields, bundles and variants have members, which stand directly inside the element or inside a
wrapper. A member that cannot be read is reported, the others are still read, and the composite is
refused.
-/

namespace WireSchema

open Markup

/-- The children that declare the fields of an element: those of its one child with the tag, if it
has one, and else its own. The flag says that there is such a child. -/
def fieldContainer (e : Element) (wrapper : String) :
    Except SchemaError (List Element × Bool) :=
  match e.childrenNamed wrapper with
  | _ :: _ :: _ => .error (.duplicateProperty wrapper)
  | [w] => .ok (w.children, true)
  | [] => .ok (e.children, false)

/-- Reads the children that declare fields, those that can be read in order; the flag says that all
could. Another child is odd inside of a wrapper. -/
def readEach (nested : NestedReader) (pos : Position) (wrapper : Option String) :
    List Element → Pass (List Field × Bool)
  | [] => pure ([], true)
  | child :: rest => do
    if isFieldTag child.tag then
      let field ← (nested pos child).settled child.line
      let (fields, ok) ← readEach nested pos wrapper rest
      match field with
      | some f => return (f :: fields, ok)
      | none => return (fields, false)
    else
      if let some tag := wrapper then
        Pass.warn child.line (.unexpectedChild tag child.tag)
      readEach nested pos wrapper rest

/-- Reads the fields of an element, directly inside or inside of a wrapper. -/
def readFields (nested : NestedReader) (pos : Position) (wrapper owner : String) (e : Element) :
    Pass (List Field) := do
  let (children, wrapped) ← fieldContainer e wrapper
  let (fields, ok) ← readEach nested pos (if wrapped then some wrapper else none) children
  Pass.require ok (.invalidMembers owner)
  return fields

/-- Reads one alias; `known` are those before it. -/
def readAlias (core : FieldCore) (members : List Field) (known : List Alias) (e : Element) :
    Except SchemaError Alias := do
  let props := e.props ["description"]
  let name ← props.required "name"
  checkName name
  if known.any (·.name == name) then throw (.duplicateName .memberAlias name)
  if members.any (·.name == name) then throw (.invalid core.name (.aliasOfMember name))
  let raw ← props.required "field"
  let path :=
    match raw.toList with
    | '$' :: path => String.ofList path
    | _ => raw
  unless Literal.isPath path do throw (.unexpectedValue "field" raw)
  let description ← props.textOf "description"
  return ⟨name, path, description, e.line⟩

/-- Reads the aliases of a bundle or variant. Whether their paths lead to members is checked when
references are bound. -/
def readAliases (core : FieldCore) (members : List Field) (e : Element) :
    Except SchemaError (List Alias) :=
  (e.childrenNamed "alias").foldlM
    (fun known child => do return known ++ [← readAlias core members known child]) []

/-- The greatest length of a bitfield in bytes. -/
def bitfieldLimit : Nat := 8

/-- A field of the kind can be a member of a bitfield. -/
def FieldKind.isBitMember (k : FieldKind) : Bool :=
  k == .int || k == .enum || k == .set || k == .ref

/-- The number of bytes that so many bits of members have to fill. -/
def readBitfieldLength (props : Props) (bits : Nat) : Except SchemaError Nat := do
  match ← props.parsed "length" fun s =>
      (Literal.word64? s).filter fun n => 1 ≤ n && n ≤ bitfieldLimit with
  | some n => return n
  | none => return min bitfieldLimit (max 1 ((bits + 7) / 8))

/-- The bits that members of a bitfield take together. -/
def totalBits : List Field → Nat
  | [] => 0
  | m :: ms => m.bitLength + totalBits ms

/-- Reads a bitfield. -/
def readBitfield (ctx : Context) (nested : NestedReader) (core : FieldCore) (props : Props)
    (e : Element) : Pass Body := do
  let members ← readFields nested (.ofBit core.window) "members" core.name e
  Pass.require (!members.isEmpty) (.invalid core.name .emptyBitfield)
  if let some m := members.find? fun m => !m.kind.isBitMember then
    Pass.fail (.bitfieldMemberKind m.name m.kind)
  let actual := totalBits members
  let length ← readBitfieldLength props actual
  Pass.require (actual == length * 8) (.bitLengthMismatch core.name (length * 8) actual)
  let endian ← readEndian ctx props
  return .bitfield endian length members

/-- Reads a bundle. -/
def readBundle (nested : NestedReader) (core : FieldCore) (e : Element) : Pass Body := do
  let members ← readFields nested (.inside core.window) "members" core.name e
  Pass.require (!members.isEmpty) (.invalid core.name .emptyBundle)
  let aliases ← readAliases core members e
  return .bundle members aliases

/-- The member of a variant that a property names: by its index, or by its name; none for a negative
index. -/
def readDefaultMember (core : FieldCore) (members : List Field) (s : String) :
    Except SchemaError (Option Nat) :=
  if s == "none" then .ok none
  else match Literal.int? s with
    | some i =>
      if i < 0 then .ok none
      else if i < members.length then .ok (some i.toNat)
      else .error (.invalid core.name (.defaultIndex i members.length))
    | none =>
      match members.findIdx? (·.name == s) with
      | some i => .ok (some i)
      | none => .error (.invalid core.name (.defaultNotMember s))

/-- Reads a variant. -/
def readVariant (nested : NestedReader) (core : FieldCore) (props : Props) (e : Element) :
    Pass Body := do
  let members ← readFields nested (.inside core.window) "members" core.name e
  let defaultMember ←
    match ← props.single "defaultMember" with
    | none => pure none
    | some s => readDefaultMember core members s
  let aliases ← readAliases core members e
  return .variant members defaultMember aliases

end WireSchema
