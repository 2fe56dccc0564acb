import WireSchema.Field.Declaration.Context

/-! # Declarations of references and optional fields

Both name a namespace-level field by its path. The condition of an optional field begins with the
name of a sibling.
-/

namespace WireSchema

open Markup

/-- Reads a reference. In a bitfield it has to say how many bits it takes. -/
def readReference (core : FieldCore) (pos : Position) (props : Props) : Pass Body := do
  let target ← readRef (← props.required "field") core.line
  match ← props.single "bitLength" with
  | some s =>
    if pos.inBitfield then
      match (Literal.word64? s).filter fun n => 1 ≤ n && n ≤ 64 with
      | some n => return .ref target (some n)
      | none => Pass.fail (.unexpectedValue "bitLength" s)
    else
      Pass.warn core.line (.bitLengthIgnored core.name)
      return .ref target none
  | none =>
    Pass.require (!pos.inBitfield) (.missingProperty "bitLength")
    return .ref target none

/-- The mode that a property names. -/
def OptionalMode.ofText? : String → Option OptionalMode
  | "tentative" => some .tentative
  | "exists" => some .present
  | "exist" => some .present
  | "missing" => some .missing
  | _ => none

/-- The sibling that a condition begins with, as in `$flags.bit0` or `!$flags.bit0`. -/
def conditionSibling? (cond : String) : Option String :=
  let trimmed := Text.trim cond.toList
  let rest :=
    match trimmed with
    | '!' :: rest => rest
    | _ => trimmed
  match rest with
  | '$' :: rest =>
    let name := rest.takeWhile Literal.isNameRest
    if Literal.isNameText name then some (String.ofList name) else none
  | _ => none

/-- Reads an optional field. -/
def readOptional (core : FieldCore) (props : Props) : Except SchemaError OptionalField := do
  let field ← readRef (← props.required "field") core.line
  let defaultMode ← props.parsedD "defaultMode" OptionalMode.ofText? .tentative
  let cond ← props.parsed "cond" fun s => (conditionSibling? s).map fun _ => s
  let missingOnReadFail ← readFlag props "missingOnReadFail"
  return { field, defaultMode, cond, missingOnReadFail }

end WireSchema
