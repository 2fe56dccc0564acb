import WireSchema.Field.Declaration.Composite
import WireSchema.Field.Declaration.Enumeration
import WireSchema.Field.Declaration.Indirect
import WireSchema.Field.Declaration.Number
import WireSchema.Field.Declaration.Sequence

/-! # Declarations of fields

`readMerged` reads an element whose base has been merged in, `readField` merges it first. Where
members reuse each other without end, reading has no end either: `readField` has as many levels as
it can need otherwise (`Context.depth`), and an element that it has none left for is not read.
-/

namespace WireSchema

open Markup

/-- Reads what the fields of all kinds have. Only a reference that is not declared in a namespace
may go without a name. -/
def readCore (ctx : Context) (pos : Position) (props : Props) (e : Element) :
    Except SchemaError FieldCore := do
  let name ←
    match ← props.single "name" with
    | some n => do
      checkName n
      pure n
    | none =>
      if e.tag == FieldKind.ref.tag && !pos.topLevel then pure ""
      else throw (.missingProperty "name")
  let semanticType ← props.parsedD "semanticType" SemanticType.ofText? .none
  let window ← Window.read name props pos.parent ctx.schemaVersion
  let displayName ← props.textOf "displayName"
  let description ← props.textOf "description"
  return { name, displayName, description, window,
           externalRef := if pos.topLevel then ctx.externalRef name else "",
           semanticType, line := e.line }

/-- Reads what the fields of one kind have. -/
def readBody (ctx : Context) (nested : NestedReader) (kind : FieldKind) (core : FieldCore)
    (pos : Position) (props : Props) (e : Element) : Pass Body :=
  match kind with
  | .int => .int <$> readInt ctx core pos props e
  | .float => .float <$> Pass.ofExcept (readFloat ctx core props e)
  | .enum => .enum <$> readEnum ctx core pos props e
  | .set => .set <$> readSet ctx core pos props e
  | .bitfield => readBitfield ctx nested core props e
  | .bundle => readBundle nested core e
  | .variant => readVariant nested core props e
  | .string => .string <$> Pass.ofExcept (readString core props e)
  | .data => .data <$> Pass.ofExcept (readData core props e)
  | .list => readList nested core props e
  | .ref => readReference core pos props
  | .optional => .optional <$> Pass.ofExcept (readOptional core props)

/-- Reads a field from an element whose base has been merged in. The role of a reference is checked
when its target is known. -/
def readMerged (ctx : Context) (nested : NestedReader) (pos : Position) (e : Element) :
    Pass Field := do
  let some kind := FieldKind.ofTag? e.tag | Pass.fail (.unknownFieldKind e.tag)
  let props := e.props kind.properties
  let core ← readCore ctx pos props e
  let body ← readBody ctx nested kind core pos props e
  Pass.require (kind == .ref || core.semanticType.fits kind)
    (.invalid core.name (.unfitRole core.semanticType kind))
  Pass.warnAll (unknownParts e props kind.properties kind.childTags)
  return .mk core body

/-- Reads a field and the fields inside it, at most `levels` inside of each other. -/
def readField (ctx : Context) : Nat → NestedReader
  | 0, _, _ => Pass.endless
  | levels + 1, pos, e => do
    let merged ← ctx.merge e
    readMerged ctx (readField ctx levels) pos merged

/-- Reads a field inside of an element that is not a field. -/
def readInside (ctx : Context) (owner : Element) : NestedReader := readField ctx (ctx.depth owner)

end WireSchema
