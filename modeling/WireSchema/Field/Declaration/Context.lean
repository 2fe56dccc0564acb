import WireSchema.Field.Basic
import WireSchema.Finding.Pass
import WireSchema.Literal.Name

/-! # Where a declaration is read

`Context` is what all declarations of a namespace share, `Position` where an element stands within
its parent. `Context.merge` lays an element with `reuse` over an earlier namespace-level field of
the same kind. A member may reuse a field too, so that reading goes from an element to elements of
other fields; `Context.depth` bounds how far it goes unless it goes on without end.
-/

namespace WireSchema

open Markup

/-- The properties that fields of all kinds have. -/
def commonProperties : List String :=
  ["name", "displayName", "description", "sinceVersion", "deprecated", "semanticType", "reuse"]

/-- The properties that fields of one kind have besides. -/
def FieldKind.ownProperties : FieldKind → List String
  | .int =>
    ["type", "endian", "length", "bitLength", "serOffset", "defaultValue", "scaling", "units",
      "validRange", "validValue", "validMin", "validMax", "validFullRange", "displayDecimals"]
  | .float =>
    ["type", "endian", "defaultValue", "validRange", "validValue", "validMin", "validMax",
      "validFullRange", "units", "displayDecimals"]
  | .enum =>
    ["type", "endian", "length", "bitLength", "nonUniqueAllowed", "hexAssign", "validCheckVersion",
      "defaultValue"]
  | .set =>
    ["type", "endian", "length", "bitLength", "defaultValue", "reservedValue", "nonUniqueAllowed",
      "validCheckVersion"]
  | .bitfield => ["endian", "length"]
  | .bundle => []
  | .variant => ["defaultMember"]
  | .string => ["length", "defaultValue", "encoding", "zeroTermSuffix", "lengthPrefix"]
  | .data => ["length", "defaultValue", "lengthPrefix"]
  | .list =>
    ["element", "count", "countPrefix", "lengthPrefix", "elemLengthPrefix", "elemFixedLength"]
  | .ref => ["field", "bitLength"]
  | .optional => ["field", "defaultMode", "cond", "missingOnReadFail"]

/-- The properties of a field of the kind. -/
def FieldKind.properties (k : FieldKind) : List String := commonProperties ++ k.ownProperties

/-- The child elements of a field of the kind that are not properties. -/
def FieldKind.childTags : FieldKind → List String
  | .int => ["special"]
  | .float => ["special"]
  | .enum => ["validValue"]
  | .set => ["bit"]
  | .bitfield => ["members", "int", "enum", "set", "ref"]
  | .bundle => "members" :: "alias" :: FieldKind.all.map FieldKind.tag
  | .variant => "members" :: "alias" :: FieldKind.all.map FieldKind.tag
  | .list =>
    "element" :: "countPrefix" :: "lengthPrefix" :: "elemLengthPrefix" ::
      FieldKind.all.map FieldKind.tag
  | _ => []

/-- Where an element stands: the window of its parent, whether it is declared in a namespace, and
whether it is a member of a bitfield. -/
structure Position where
  parent : Window
  topLevel : Bool
  inBitfield : Bool

/-- The position of a declaration in a namespace. -/
def Position.inNamespace : Position := ⟨.always, true, false⟩

/-- The position inside an element with the window. -/
def Position.inside (parent : Window) : Position := ⟨parent, false, false⟩

/-- The position of a member of a bitfield with the window. -/
def Position.ofBit (parent : Window) : Position := ⟨parent, false, true⟩

/-- What the declarations of a namespace share: the elements of accepted namespace-level fields
under their external references, the version and byte order of the schema, and the path of the
namespace. -/
structure Context where
  bases : List (String × Element)
  schemaVersion : Nat
  endian : Endian
  scope : String

namespace Context

/-- The path from the root to a declaration of the namespace. -/
def externalRef (ctx : Context) (name : String) : String :=
  if ctx.scope.isEmpty then name else s!"{ctx.scope}.{name}"

/-- The element of the field with the external reference. -/
def lookup? (ctx : Context) (path : String) : Option Element :=
  (ctx.bases.find? (·.1 == path)).map (·.2)

/-- The element to reuse: the path leads from the namespace, or else from the root. -/
def base? (ctx : Context) (path : String) : Option Element :=
  (ctx.lookup? (ctx.externalRef path)).or (ctx.lookup? path)

/-- The element over the field that it reuses, if it reuses one. -/
def merge (ctx : Context) (e : Element) : Except SchemaError Element :=
  match FieldKind.ofTag? e.tag with
  | none => .error (.unknownFieldKind e.tag)
  | some kind =>
    match (e.props ["reuse"]).single "reuse" with
    | .error err => .error err
    | .ok none => .ok e
    | .ok (some path) =>
      let owner := (e.attr "name").getD e.tag
      match ctx.base? path with
      | none => .error (.invalid owner (.unknownBase path))
      | some base =>
        if base.tag == e.tag then .ok (e.inheritFrom base kind.properties)
        else .error (.invalid owner (.baseOfOtherKind path base.tag e.tag))

/-- As many levels as reading in `e` goes through if it ends. It comes to elements of `e` and of the
fields that can be reused, in a bitfield or not. The window narrows on the way inside, each time to
a version that one of these elements gives, and an element that is inside of itself in one window
is so without end. -/
def depth (ctx : Context) (e : Element) : Nat :=
  let elements := e.size + Element.sizeAll (ctx.bases.map (·.2))
  2 * elements * (2 * elements + 1)

end Context

/-- Reads a field that is declared inside the one being read. -/
abbrev NestedReader := Position → Element → Pass Field

/-- The warnings about properties and children of an element that its reader does not know. -/
def unknownParts (e : Element) (props : Props) (properties childTags : List String) :
    List (Nat × Warning) :=
  (props.unknown properties).map (fun key => (e.line, .unknownProperty e.tag key)) ++
    (e.children.filter fun c => !(properties.contains c.tag || childTags.contains c.tag)).map
      fun c => (c.line, .unexpectedChild e.tag c.tag)

/-- A flag that is false unless it is set. -/
def readFlag (props : Props) (key : String) : Except SchemaError Bool :=
  props.parsedD key Literal.bool? false

/-- The byte order, by default that of the schema. -/
def readEndian (ctx : Context) (props : Props) : Except SchemaError Endian :=
  props.parsedD "endian" Endian.ofText? ctx.endian

/-- A name; a text that is not one is refused. -/
def checkName (name : String) : Except SchemaError Unit :=
  if Literal.isName name then .ok () else .error (.invalidName name)

/-- A reference that is not bound yet. -/
def readRef (path : String) (line : Nat) : Except SchemaError FieldRef :=
  if Literal.isPath path then .ok ⟨path, none, line⟩ else .error (.invalidName path)

/-- The number of bits of a member of a bitfield, by default all of them. Anywhere else the property
is ignored. -/
def readBitLength (props : Props) (core : FieldCore) (pos : Position) (varies : Bool)
    (limit : Nat) : Pass Nat := do
  Pass.require (!(pos.inBitfield && varies)) (.variableLengthMember core.name)
  match ← props.single "bitLength" with
  | none => pure limit
  | some s =>
    if !pos.inBitfield then do
      Pass.warn core.line (.bitLengthIgnored core.name)
      pure limit
    else
      match Literal.word64? s with
      | none => Pass.fail (.unexpectedValue "bitLength" s)
      | some bits =>
        if bits == 0 || limit < bits then Pass.fail (.length core.name (.bitLength bits limit))
        else pure bits

/-- A value has to lie within the type; one that the wire cannot carry is odd. -/
def checkValue (core : FieldCore) (what : String) (v : Int) (type wire : Interval) : Pass Unit :=
  if !type.contains v then Pass.fail (.outOfTypeRange core.name (toString v))
  else if !wire.contains v then
    Pass.warn core.line (.notSerialisable core.name what v wire.lo wire.hi)
  else pure ()

end WireSchema
