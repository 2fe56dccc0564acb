import WireSchema.Namespace.Declaration

/-! # Schemas

The first document gives the schema its name, version and byte order; every document adds platforms
and the content of the root namespace. All documents have to name the same schema.
-/

namespace WireSchema

open Markup

/-- A protocol, built from one document or several. -/
structure Schema where
  name : String
  id : Nat
  version : Nat
  endian : Endian
  description : String
  nonUniqueMsgIdAllowed : Bool
  platforms : List String
  root : Namespace
  catalogue : Catalogue

namespace Schema

/-- The properties of a schema. -/
def properties : List String :=
  ["name", "id", "version", "endian", "description", "nonUniqueMsgIdAllowed", "dslVersion"]

/-- The fields declared in namespaces. -/
def arena (s : Schema) : Arena := s.catalogue.arena

/-- Reads what the root element of the first document says about the schema as a whole. -/
def read (e : Element) : Pass Schema := do
  Pass.require (e.tag == "schema") (.notSchema e.tag)
  let props := e.props properties
  let name ← props.required "name"
  checkName name
  let id ← props.parsedD "id" Literal.word32? 0
  let version ← props.parsedD "version" Literal.word32? 0
  let endian ← props.parsedD "endian" Endian.ofText? .little
  let nonUniqueMsgIdAllowed ← readFlag props "nonUniqueMsgIdAllowed"
  Pass.warnAll ((props.unknown properties).map fun key => (e.line, .unknownProperty "schema" key))
  let description ← props.textOf "description"
  return { name, id, version, endian, description, nonUniqueMsgIdAllowed, platforms := [],
           root := .root, catalogue := ⟨.empty, []⟩ }

/-- Reads the name of a platform; `known` are those before it. -/
def readPlatform (known : List String) (e : Element) : Except SchemaError String := do
  let name ← (e.props []).required "name"
  checkName name
  if known.contains name then throw (.duplicateName .platform name)
  return name

/-- The platforms with those that are declared, up to the first one that cannot be read. -/
def addPlatforms (known : List String) : List Element → List String × Option SchemaError
  | [] => (known, none)
  | e :: es =>
    match readPlatform known e with
    | .error err => (known, some err)
    | .ok name => addPlatforms (known ++ [name]) es

/-- The elements that declare platforms. -/
def platformElements (e : Element) : List Element :=
  (e.childrenNamed "platforms").flatMap (·.childrenNamed "platform")

/-- A schema after a step, the findings of the step, and whether it had no error. -/
structure Step where
  schema : Schema
  findings : List Finding
  ok : Bool

/-- Adds the content of a document. -/
def addDocument (s : Schema) (e : Element) : Step :=
  let named :=
    match (e.props properties).single "name" with
    | .ok (some name) => name == s.name
    | _ => false
  if !named then ⟨s, [⟨e.line, .error (.otherSchema s.name)⟩], false⟩
  else
    let p := addPlatforms s.platforms (platformElements e)
    let early : List Finding :=
      match p.2 with
      | some err => [⟨e.line, .error err⟩]
      | none => []
    let g := Population.add ⟨s.version, s.endian⟩ properties ⟨s.root, s.catalogue⟩ e
    ⟨{ s with platforms := p.1, root := g.population.scope, catalogue := g.population.catalogue },
      early ++ g.findings, g.ok && p.2.isNone⟩

/-- Some interface has a field with the version of the other end. -/
def hasVersionField (s : Schema) : Bool := s.root.allInterfaces.any (·.versionField?.isSome)

end Schema

end WireSchema
