import WireSchema.Field.Declaration
import WireSchema.Field.Validation

/-! # Messages

A message has an id, which is a number or the path of an enumeration with the name of one of its
values, and the fields of its payload. A symbolic id gets its number when references are bound.
-/

namespace WireSchema

open Markup

/-- A message and the fields of its payload. -/
structure Message where
  name : String
  displayName : String
  description : String
  externalRef : String
  idSpec : String
  id : Option Int
  window : Window
  fields : List Field
  platforms : List String
  interface : Option String
  line : Nat

namespace Message

/-- The properties of a message. -/
def properties : List String :=
  ["name", "id", "displayName", "description", "sinceVersion", "deprecated", "platforms",
    "interface"]

/-- The names of a list with commas, blanks around them taken off and empty ones left out. -/
def platformNames (s : String) : List String :=
  ((Text.pieces ',' s.toList).map Text.trim).filterMap fun p =>
    if p.isEmpty then none else some (String.ofList p)

/-- Reads a message. -/
def read (ctx : Context) (e : Element) : Pass Message := do
  let props := e.props properties
  let name ← props.required "name"
  checkName name
  let idSpec ← props.required "id"
  let id := Literal.int? idSpec
  Pass.require (id.isSome || Literal.isPath idSpec) (.unexpectedValue "id" idSpec)
  let window ← Window.read name props .always ctx.schemaVersion
  let platforms ← props.single "platforms"
  let interface ← props.parsed "interface" fun s => if Literal.isPath s then some s else none
  Pass.warnAll ((props.unknown properties).map fun key =>
    (e.line, .unknownProperty "message" key))
  let fields ← readFields (readInside ctx e) (.inside window) "fields" name e
  let displayName ← props.textOf "displayName"
  let description ← props.textOf "description"
  return { name, displayName, description, externalRef := ctx.externalRef name, idSpec, id, window,
           fields, platforms := (platforms.map platformNames).getD [], interface, line := e.line }

/-- The path of the namespace that declares the message. -/
def scope (m : Message) : String :=
  match Text.cutLastString '.' m.externalRef with
  | some (scope, _) => scope
  | none => ""

/-- Some field, or a member at any depth, exists only from a later version on. -/
def isVersionDependent (m : Message) : Bool := anyVersionDependent m.fields

/-- Checks a message: its platforms are declared, and its interface exists. -/
def check (cx : CheckContext) (platforms : List String) (hasInterface : String → Bool)
    (m : Message) : Pass Unit := do
  if let some p := m.platforms.find? fun p => !platforms.contains p then
    Pass.fail (.undeclaredPlatform m.externalRef p)
  if let some path := m.interface then
    Pass.require (hasInterface path) (.invalid m.externalRef (.unknownInterface path))
  checkOwned cx m.externalRef m.fields

end Message

end WireSchema
