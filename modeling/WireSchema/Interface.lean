import WireSchema.Field.Declaration
import WireSchema.Field.Validation

/-! # Interfaces

An interface lists the fields that every message of a namespace travels with. The default interface
of a namespace has no name, and the path of the namespace as its external reference.
-/

namespace WireSchema

open Markup

/-- The fields that messages travel with. -/
structure Interface where
  name : String
  externalRef : String
  description : String
  fields : List Field
  line : Nat

namespace Interface

/-- The properties of an interface. -/
def properties : List String := ["name", "description"]

/-- Reads an interface. -/
def read (ctx : Context) (e : Element) : Pass Interface := do
  let props := e.props properties
  let name ← props.textOf "name"
  Pass.require (name.isEmpty || Literal.isName name) (.invalidName name)
  Pass.warnAll ((props.unknown properties).map fun key =>
    (e.line, .unknownProperty "interface" key))
  let owner := if name.isEmpty then "interface" else name
  let fields ← readFields (readInside ctx e) (.inside .always) "fields" owner e
  let description ← props.textOf "description"
  return { name, externalRef := if name.isEmpty then ctx.scope else ctx.externalRef name,
           description, fields, line := e.line }

/-- The default interface of a namespace that declares none. -/
def default (scope : String) : Interface := ⟨"", scope, "", [], 0⟩

/-- The interface has no name. -/
def isDefault (i : Interface) : Bool := i.name.isEmpty

/-- The field with the name. -/
def field? (i : Interface) (name : String) : Option Field := i.fields.find? (·.name == name)

/-- The field with the version of the other end. -/
def versionField? (i : Interface) : Option Field :=
  i.fields.find? (·.core.semanticType == .version)

/-- Checks an interface: it has at most one field with the version. -/
def check (cx : CheckContext) (i : Interface) : Pass Unit := do
  Pass.require (i.fields.countP (·.core.semanticType == .version) ≤ 1)
    (.invalid i.externalRef .severalVersionFields)
  checkOwned cx i.externalRef i.fields

end Interface

end WireSchema
