import WireSchema.Field.Declaration.Number

/-! # Declarations of enumerations and sets

An enumeration names values of an integer type, a set names bits. A name is declared once; unless
the field allows it, so is a value or a bit.
-/

namespace WireSchema

open Markup

/-- Reads one value of the enumeration `f`, which has the values before it. -/
def readEnumValue (ctx : Context) (core : FieldCore) (f : EnumField) (e : Element) :
    Pass (Special Int) := do
  let props := e.props ["description", "displayName"]
  let name ← props.required "name"
  checkName name
  Pass.require (f.value? name).isNone (.duplicateName .enumValue name)
  let raw ← props.required "val"
  let some value := Literal.int? raw | Pass.fail (.unexpectedValue "val" raw)
  checkValue core "value" value f.typeRange f.wireRange
  unless f.nonUniqueAllowed do
    match f.namesOf value with
    | existing :: _ => Pass.fail (.duplicateValue core.name (toString value) existing)
    | [] => pure ()
  let window ← Window.read name props core.window ctx.schemaVersion
  let description ← props.textOf "description"
  let displayName ← props.textOf "displayName"
  return ⟨name, value, window, description, displayName⟩

/-- The default value of an enumeration: a number or the name of a value. -/
def readEnumDefault (core : FieldCore) (f : EnumField) (s : String) : Except SchemaError Int :=
  match Literal.int? s with
  | some v => .ok v
  | none =>
    if Literal.isName s then
      match f.value? s with
      | some v => .ok v.value
      | none => .error (.invalid core.name (.unknownDefault s))
    else .error (.unexpectedValue "defaultValue" s)

/-- Reads an enumeration. -/
def readEnum (ctx : Context) (core : FieldCore) (pos : Position) (props : Props) (e : Element) :
    Pass EnumField := do
  let rawType ← props.required "type"
  let some type := (IntType.ofName? rawType).filter (!·.isVariable)
    | Pass.fail (.unexpectedValue "type" rawType)
  let length ← readTypeLength props core type
  let endian ← readEndian ctx props
  let bitLength ← readBitLength props core pos false (length * 8)
  let nonUniqueAllowed ← readFlag props "nonUniqueAllowed"
  let hexAssign ← readFlag props "hexAssign"
  let validCheckVersion ← readFlag props "validCheckVersion"
  let bare : EnumField :=
    { type, endian, length, bitLength, nonUniqueAllowed, hexAssign, validCheckVersion,
      defaultValue := 0, values := [] }
  let field ← (e.childrenNamed "validValue").foldlM
    (fun f child => do return { f with values := f.values ++ [← readEnumValue ctx core f child] })
    bare
  Pass.require (!field.values.isEmpty) (.invalid core.name .noEnumValue)
  match ← props.single "defaultValue" with
  | none => return field
  | some s =>
    let defaultValue ← readEnumDefault core field s
    checkValue core "default value" defaultValue field.typeRange field.wireRange
    return { field with defaultValue }

/-- The smallest unsigned type that has so many bytes. -/
def unsignedType? (length : Nat) : Option IntType :=
  if length = 0 then none
  else if length ≤ 1 then some .uint8
  else if length ≤ 2 then some .uint16
  else if length ≤ 4 then some .uint32
  else if length ≤ 8 then some .uint64
  else none

/-- The type and length of a set, of which at least one is declared. -/
def readSetType (core : FieldCore) (type : Option IntType) (length : Option Nat) :
    Except SchemaError (IntType × Nat) :=
  match type, length with
  | some t, none => .ok (t, t.maxLength)
  | some t, some n =>
    if n != 0 && n ≤ t.maxLength then .ok (t, n)
    else .error (.length core.name (.typeTooShort n t.name))
  | none, some n =>
    match unsignedType? n with
    | some t => .ok (t, n)
    | none => .error (.length core.name (.beyondSet n))
  | none, none => .error (.missingProperty "length")

/-- Reads one bit of the set `f`, which has the bits before it. -/
def readSetBit (ctx : Context) (core : FieldCore) (f : SetField) (e : Element) :
    Except SchemaError SetBit := do
  let props := e.props ["description", "displayName"]
  let name ← props.required "name"
  checkName name
  if (f.bit? name).isSome then throw (.duplicateName .bit name)
  let raw ← props.required "idx"
  let some idx := Literal.word64? raw | throw (.unexpectedValue "idx" raw)
  if f.bitLength ≤ idx then throw (.length core.name (.bitIndex name idx f.bitLength))
  unless f.nonUniqueAllowed do
    if let some existing := f.bits.find? (·.idx == idx) then
      throw (.duplicateValue core.name (toString idx) existing.name)
  let defaultValue ← props.parsedD "defaultValue" Literal.bool? f.defaultValue
  let reserved ← readFlag props "reserved"
  let window ← Window.read name props core.window ctx.schemaVersion
  let description ← props.textOf "description"
  let displayName ← props.textOf "displayName"
  return { name, idx, defaultValue, reserved, window, description, displayName }

/-- Reads a set. -/
def readSet (ctx : Context) (core : FieldCore) (pos : Position) (props : Props) (e : Element) :
    Pass SetField := do
  let declaredType ← props.parsed "type" fun s =>
    (IntType.ofName? s).filter fun t => !t.isSigned && !t.isVariable
  let declaredLength ← props.parsed "length" Literal.word64?
  let (type, length) ← readSetType core declaredType declaredLength
  let endian ← readEndian ctx props
  let bitLength ← readBitLength props core pos false (length * 8)
  let defaultValue ← readFlag props "defaultValue"
  let reservedValue ← readFlag props "reservedValue"
  let nonUniqueAllowed ← readFlag props "nonUniqueAllowed"
  let validCheckVersion ← readFlag props "validCheckVersion"
  let bare : SetField :=
    { type, endian, length, bitLength, defaultValue, reservedValue, nonUniqueAllowed,
      validCheckVersion, bits := [] }
  (e.childrenNamed "bit").foldlM
    (fun f child => do return { f with bits := f.bits ++ [← readSetBit ctx core f child] }) bare

end WireSchema
