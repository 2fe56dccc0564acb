import WireSchema.Decimal.Shortest
import WireSchema.Field.Declaration.Context
import WireSchema.Field.Value
import WireSchema.Literal.Range
import WireSchema.Literal.Real

/-! # Declarations of numbers

Integer and real fields have special values, a default value and valid ranges; each of these values
is a literal or the name of a special value. The values of an integer have to fit its type, and a
warning is given where the wire cannot carry them.
-/

namespace WireSchema

open Markup

/-- Reads one special value; `known` are those before it. -/
def readSpecial {α : Type} (ctx : Context) (core : FieldCore) (read : String → Option α)
    (known : List (Special α)) (e : Element) : Except SchemaError (Special α) := do
  let props := e.props ["description", "displayName"]
  let name ← props.required "name"
  checkName name
  if known.any (·.name == name) then throw (.duplicateName .specialValue name)
  let raw ← props.required "val"
  let some value := read raw | throw (.unexpectedValue "val" raw)
  let window ← Window.read name props core.window ctx.schemaVersion
  let description ← props.textOf "description"
  let displayName ← props.textOf "displayName"
  return ⟨name, value, window, description, displayName⟩

/-- Reads the special values of a number in order. -/
def readSpecials {α : Type} (ctx : Context) (core : FieldCore) (read : String → Option α)
    (e : Element) : Except SchemaError (List (Special α)) :=
  (e.childrenNamed "special").foldlM
    (fun known child => do return known ++ [← readSpecial ctx core read known child]) []

/-- The length of an integer, by default the greatest one of its type. -/
def readTypeLength (props : Props) (core : FieldCore) (type : IntType) :
    Except SchemaError Nat := do
  match ← props.parsed "length" Literal.word64? with
  | none => return type.maxLength
  | some n =>
    if n == 0 || type.maxLength < n then throw (.length core.name (.typeTooShort n type.name))
    return n

/-- The valid ranges in the order of the properties that declare them; `least` and `greatest` stand
for the bounds that are not given. -/
def readRanges {α : Type} (props : Props) (valueOf? : String → Option α) (least greatest : α) :
    Except SchemaError (List (α × α)) := do
  let value (key s : String) : Except SchemaError α :=
    match valueOf? s with
    | some v => .ok v
    | none => .error (.unexpectedValue key s)
  let ranges ← (props.all "validRange").mapM fun s => do
    let some (lo, hi) := Literal.range? s | throw (.unexpectedValue "validRange" s)
    return (← value "validRange" lo, ← value "validRange" hi)
  let values ← (props.all "validValue").mapM fun s => do
    let v ← value "validValue" s
    return (v, v)
  let mins ← (props.all "validMin").mapM fun s => do return (← value "validMin" s, greatest)
  let maxs ← (props.all "validMax").mapM fun s => do return (least, ← value "validMax" s)
  let full ← readFlag props "validFullRange"
  return ranges ++ values ++ mins ++ maxs ++ (if full then [(least, greatest)] else [])

/-- Checks the bounds of a valid range of integers. -/
def checkRange (core : FieldCore) (type wire : Interval) (r : Interval) : Pass Unit := do
  Pass.require (r.lo ≤ r.hi) (.invalid core.name (.reversedRange r.lo r.hi))
  checkValue core "valid range bound" r.lo type wire
  checkValue core "valid range bound" r.hi type wire

/-- Reads an integer field. -/
def readInt (ctx : Context) (core : FieldCore) (pos : Position) (props : Props) (e : Element) :
    Pass IntField := do
  let rawType ← props.required "type"
  let some type := IntType.ofName? rawType | Pass.fail (.unexpectedValue "type" rawType)
  let length ← readTypeLength props core type
  let bitLength ← readBitLength props core pos type.isVariable (length * 8)
  let serOffset ← props.parsedD "serOffset" Literal.int? 0
  let scaling ← props.parsedD "scaling" Literal.ratio? (1, 1)
  let displayDecimals ← props.parsedD "displayDecimals" Literal.word64? 0
  let endian ← readEndian ctx props
  let units ← props.single "units"
  let specials ← readSpecials ctx core Literal.int? e
  let field : IntField :=
    { type, endian, length, bitLength, serOffset, defaultValue := 0, scaling, units,
      displayDecimals, validRanges := [], specials }
  let some wire := field.offsetRange?
    | Pass.fail (.invalid core.name (.offsetTooLarge serOffset))
  let range := field.typeRange
  specials.forM fun s => checkValue core "special value" s.value range wire
  let defaultValue ←
    match ← props.parsed "defaultValue" field.valueOf? with
    | none => pure 0
    | some v => do
      checkValue core "default value" v range wire
      pure v
  let validRanges ← readRanges props field.valueOf? range.lo range.hi
  let validRanges := validRanges.map fun r => (⟨r.1, r.2⟩ : Interval)
  validRanges.forM (checkRange core range wire)
  return { field with defaultValue, validRanges }

/-- A real number has to fit its type. -/
def checkReal (core : FieldCore) (type : FloatType) (v : Float) : Except SchemaError Unit :=
  if type.fits v then .ok () else .error (.outOfTypeRange core.name (Decimal.text v))

/-- Checks the bounds of a valid range of reals. What is not a number can only be a range by
itself. -/
def checkRealRange (core : FieldCore) (type : FloatType) (r : Float × Float) :
    Except SchemaError Unit := do
  if r.1.isNaN != r.2.isNaN || r.2 < r.1 then
    throw (.invalid core.name (.invalidRange (Decimal.text r.1) (Decimal.text r.2)))
  checkReal core type r.1
  checkReal core type r.2

/-- Reads a real field. -/
def readFloat (ctx : Context) (core : FieldCore) (props : Props) (e : Element) :
    Except SchemaError FloatField := do
  let rawType ← props.required "type"
  let some type := FloatType.ofName? rawType | throw (.unexpectedValue "type" rawType)
  let endian ← readEndian ctx props
  let specials ← readSpecials ctx core Literal.real? e
  let units ← props.single "units"
  specials.forM fun s => checkReal core type s.value
  let valueOf? (s : String) : Option Float :=
    (Literal.real? s).or ((specials.find? (·.name == s)).map (·.value))
  let defaultValue ←
    match ← props.parsed "defaultValue" valueOf? with
    | none => pure 0
    | some v => do
      checkReal core type v
      pure v
  let validRanges ← readRanges props valueOf? Decimal.negInfinity Decimal.infinity
  validRanges.forM (checkRealRange core type)
  return { type, endian, defaultValue, validRanges, specials, units }

end WireSchema
