import WireSchema.Field.Declaration.Context
import WireSchema.Literal.Octets

/-! # Declarations of texts, octets and lists

The size of a text or of octets is fixed, or read from a prefix, or for a text found by a
terminating zero. The prefixes of lists may also be declared inside.
-/

namespace WireSchema

open Markup

/-- A named prefix: `$` and the name of a sibling, or the path of a namespace-level field. -/
def readPrefixName (key value : String) (line : Nat) : Except SchemaError PrefixName :=
  match value.toList with
  | '$' :: name =>
    if Literal.isNameText name then .ok (.sibling (String.ofList name))
    else .error (.unexpectedValue key value)
  | _ => (readRef value line).map .path

/-- The fixed length of a sequence of bytes. -/
def readFixedLength (props : Props) : Except SchemaError (Option Nat) :=
  props.parsed "length" fun s => (Literal.word64? s).filter (· > 0)

/-- The prefix of a text or of octets, which cannot be declared inside. -/
def readLengthPrefix (core : FieldCore) (props : Props) (e : Element) :
    Except SchemaError (Option PrefixName) := do
  if e.children.any fun c => c.tag == "lengthPrefix" && !c.children.isEmpty then
    throw (.invalid core.name .inlineLengthPrefix)
  match ← props.single "lengthPrefix" with
  | none => return none
  | some value => return some (← readPrefixName "lengthPrefix" value e.line)

/-- At most one of a fixed length, a prefix and a terminating suffix. -/
def checkSizing (core : FieldCore) (length : Option Nat) (source : Option PrefixName)
    (suffix : Bool) : Except SchemaError Unit :=
  match length, source, suffix with
  | some _, some _, _ => .error (.prefixConflict core.name .lengthAndPrefix)
  | some _, none, true => .error (.prefixConflict core.name .lengthAndSuffix)
  | none, some _, true => .error (.prefixConflict core.name .prefixAndSuffix)
  | _, _, _ => .ok ()

/-- A default value is no longer than the fixed length. -/
def checkDefaultSize (core : FieldCore) (length : Option Nat) (size : Nat) :
    Except SchemaError Unit :=
  match length with
  | some n => if n < size then .error (.length core.name (.longDefault n)) else .ok ()
  | none => .ok ()

/-- Reads a text. -/
def readString (core : FieldCore) (props : Props) (e : Element) :
    Except SchemaError StringField := do
  let length ← readFixedLength props
  let zeroTermSuffix ← readFlag props "zeroTermSuffix"
  let lengthPrefix ← readLengthPrefix core props e
  checkSizing core length lengthPrefix zeroTermSuffix
  let defaultValue ← props.textOf "defaultValue"
  checkDefaultSize core length defaultValue.utf8ByteSize
  let encoding ← props.single "encoding"
  return { length, defaultValue, encoding, zeroTermSuffix, lengthPrefix }

/-- Reads a sequence of octets. -/
def readData (core : FieldCore) (props : Props) (e : Element) : Except SchemaError DataField := do
  let length ← readFixedLength props
  let lengthPrefix ← readLengthPrefix core props e
  checkSizing core length lengthPrefix false
  let defaultValue ← props.parsedD "defaultValue" Literal.octets? []
  checkDefaultSize core length defaultValue.length
  return { length, defaultValue, lengthPrefix }

/-- The children that declare fields. -/
def fieldChildren (e : Element) : List Element := e.children.filter fun c => isFieldTag c.tag

/-- The fields declared in an element directly, and then those in its children with the tag. -/
def fieldsInside (e : Element) (wrapper : String) : List Element :=
  fieldChildren e ++ (e.childrenNamed wrapper).flatMap fieldChildren

/-- Reads the prefix of a list that is called `key`: by its name, or a single field inside of a
child element. -/
def readPrefix (nested : NestedReader) (core : FieldCore) (props : Props) (e : Element)
    (key : String) : Pass (Option Prefix) := do
  let named ← props.single key
  match named, (e.childrenNamed key).filter fun c => !c.children.isEmpty with
  | _, _ :: _ :: _ => Pass.fail (.duplicateProperty key)
  | none, [] => pure none
  | some _, [_] => Pass.fail (.prefixConflict core.name (.namedAndInline key))
  | some value, [] => do return some (.named (← readPrefixName key value e.line))
  | none, [wrapper] =>
    match fieldChildren wrapper with
    | [field] => do return some (.inline (← nested (.inside core.window) field))
    | _ => Pass.fail (.invalid core.name (.notOneField key))

/-- Reads the element of a list: by its path, or a single field inside. -/
def readListElement (nested : NestedReader) (core : FieldCore) (props : Props) (e : Element) :
    Pass Part := do
  let named ← props.single "element"
  match named, fieldsInside e "element" with
  | some path, [] => do return .reference (← readRef path e.line)
  | none, [field] => do return .inline (← nested (.inside core.window) field)
  | none, [] => Pass.fail (.missingProperty "element")
  | _, _ => Pass.fail (.invalid core.name .elementNotOnce)

/-- At most one of a fixed count, a prefix with the count and a prefix with the length; elements of
one length need a prefix with it. -/
def checkCounting (core : FieldCore)
    (count countPrefix lengthPrefix elemLengthPrefix fixed : Bool) : Except SchemaError Unit :=
  let conflict (fault : PrefixFault) : Except SchemaError Unit :=
    .error (.prefixConflict core.name fault)
  if count && countPrefix then conflict (.exclusive "count" "countPrefix")
  else if count && lengthPrefix then conflict (.exclusive "count" "lengthPrefix")
  else if countPrefix && lengthPrefix then conflict (.exclusive "countPrefix" "lengthPrefix")
  else if fixed && !elemLengthPrefix then conflict .fixedWithoutLength
  else .ok ()

/-- Reads a list. -/
def readList (nested : NestedReader) (core : FieldCore) (props : Props) (e : Element) :
    Pass Body := do
  let element ← readListElement nested core props e
  let count ← props.parsed "count" fun s => (Literal.word64? s).filter (· > 0)
  let countPrefix ← readPrefix nested core props e "countPrefix"
  let lengthPrefix ← readPrefix nested core props e "lengthPrefix"
  let elemLengthPrefix ← readPrefix nested core props e "elemLengthPrefix"
  let fixed ← readFlag props "elemFixedLength"
  checkCounting core count.isSome countPrefix.isSome lengthPrefix.isSome elemLengthPrefix.isSome
    fixed
  return .list element count countPrefix lengthPrefix elemLengthPrefix fixed

end WireSchema
