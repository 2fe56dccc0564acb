import WireSchema.Namespace.Basic

/-! # Declarations of a namespace

The content of an element is added to a namespace: nested namespaces first, then fields, interfaces,
messages and frames. Namespaces of one name are one namespace. A declaration that cannot be read, or
whose name is taken, is reported and left out; the others are added all the same.
-/

namespace WireSchema

open Markup

/-- The fields accepted so far: in the arena, and as elements under their external references. -/
structure Catalogue where
  arena : Arena
  bases : List (String × Element)

/-- What does not change while documents are added. -/
structure Setting where
  version : Nat
  endian : Endian

/-- A namespace and the fields of all namespaces. -/
structure Population where
  scope : Namespace
  catalogue : Catalogue

/-- The population after a step, the findings of the step, and whether it had no error. -/
structure Growth where
  population : Population
  findings : List Finding
  ok : Bool

namespace Growth

/-- Nothing is added. -/
def none (p : Population) : Growth := ⟨p, [], true⟩

/-- One step after the other. -/
def andThen (g : Growth) (step : Population → Growth) : Growth :=
  let h := step g.population
  ⟨h.population, g.findings ++ h.findings, g.ok && h.ok⟩

/-- The population that a pass makes, or the one before it if it fails. -/
def ofPass (p : Population) (line : Nat) (pass : Pass Population) : Growth :=
  let r := pass.settle line
  ⟨r.1.getD p, r.2, r.1.isSome⟩

/-- A step for each of the elements. -/
def forEach (step : Population → Element → Pass Population) (p : Population) :
    List Element → Growth
  | [] => none p
  | e :: es => (ofPass p e.line (step p e)).andThen fun p => forEach step p es

/-- A step that only warns. -/
def warnings (p : Population) (ws : List (Nat × Warning)) : Growth :=
  ⟨p, ws.map fun w => ⟨w.1, .warning w.2⟩, true⟩

end Growth

namespace Namespace

/-- The properties of a namespace. -/
def properties : List String := ["name", "description"]

/-- The child elements of a namespace that are not fields. -/
def childTags : List String :=
  ["ns", "fields", "interface", "interfaces", "message", "messages", "frame", "frames"]

end Namespace

namespace Population

/-- What the declarations of the namespace are read with. -/
def context (setting : Setting) (p : Population) : Context :=
  ⟨p.catalogue.bases, setting.version, setting.endian, p.scope.externalRef⟩

/-- The children with an accepted tag, directly or inside of a wrapper. -/
def declared (e : Element) (wrapper : String) (accept : String → Bool) : List Element :=
  e.children.flatMap fun c =>
    if c.tag == wrapper then c.children.filter fun d => accept d.tag
    else if accept c.tag then [c]
    else []

/-- The items with one more, unless its name is taken. -/
def insert {α : Type} (noun : Noun) (name : α → String) (x : α) (xs : List α) : Pass (List α) :=
  Pass.ofOption (.duplicateName noun (name x)) (insertNamed name x xs)

/-- Adds a field. -/
def addField (setting : Setting) (p : Population) (e : Element) : Pass Population := do
  let ctx := p.context setting
  let merged ← ctx.merge e
  let field ← readMerged ctx (readField ctx (ctx.depth e)) .inNamespace merged
  let fields ← insert .field Prod.fst (field.name, p.catalogue.arena.size) p.scope.fields
  return { scope := { p.scope with fields }
           catalogue :=
             { arena := p.catalogue.arena.push field
               bases := (field.externalRef, merged) :: p.catalogue.bases } }

/-- Adds an interface. -/
def addInterface (setting : Setting) (p : Population) (e : Element) : Pass Population := do
  let i ← Interface.read (p.context setting) e
  Pass.require (!(i.isDefault && p.scope.hasDefaultInterface))
    (.invalid p.scope.externalRef .severalDefaultInterfaces)
  let interfaces ← insert .interface Interface.name i p.scope.interfaces
  return { p with scope := { p.scope with interfaces } }

/-- Adds a message. -/
def addMessage (setting : Setting) (p : Population) (e : Element) : Pass Population := do
  let m ← Message.read (p.context setting) e
  let messages ← insert .message Message.name m p.scope.messages
  return { p with scope := { p.scope with messages } }

/-- Adds a frame. -/
def addFrame (setting : Setting) (p : Population) (e : Element) : Pass Population := do
  let f ← Frame.read (p.context setting) e
  let frames ← insert .frame Frame.name f p.scope.frames
  return { p with scope := { p.scope with frames } }

/-- The warnings about children that are no part of the namespace. Only the root has platforms. -/
def unknownChildren (scope : Namespace) (properties : List String) (e : Element) :
    List (Nat × Warning) :=
  let known (c : Element) : Bool :=
    Namespace.childTags.contains c.tag || isFieldTag c.tag || c.isPropertyChild properties ||
      (scope.name.isEmpty && c.tag == "platforms")
  (e.children.filter fun c => !known c).map fun c => (c.line, .unexpectedChild e.tag c.tag)

/-- Adds the content of an element, except for nested namespaces. -/
def addOwn (setting : Setting) (properties : List String) (e : Element) (p : Population) :
    Growth :=
  (Growth.forEach (addField setting) p (declared e "fields" isFieldTag)).andThen fun p =>
  (Growth.forEach (addInterface setting) p (declared e "interfaces" (· == "interface"))).andThen
    fun p =>
  (Growth.forEach (addMessage setting) p (declared e "messages" (· == "message"))).andThen fun p =>
  (Growth.forEach (addFrame setting) p (declared e "frames" (· == "frame"))).andThen fun p =>
  Growth.warnings p (unknownChildren p.scope properties e)

/-- The name of a nested namespace. -/
def readName (e : Element) : Pass String := do
  let props := e.props Namespace.properties
  let name ← props.required "name"
  checkName name
  Pass.warnAll ((props.unknown Namespace.properties).map fun key =>
    (e.line, .unknownProperty "ns" key))
  return name

/-- The nested namespace with the name, a new one if there is none. -/
def nested (setting : Setting) (p : Population) (name : String) : Namespace :=
  (p.scope.child? name).getD (.empty name ((p.context setting).externalRef name))

/-- The population with a nested namespace put in. -/
def putNested (p : Population) (scope : Namespace) (catalogue : Catalogue) : Population :=
  { scope := { p.scope with namespaces := putNamed Namespace.name scope p.scope.namespaces }
    catalogue }

/-- Adds to the nested namespace that an element declares, `fill` adding the content of the
element. -/
def addNested (setting : Setting) (p : Population) (e : Element)
    (fill : Population → Growth) : Growth :=
  let head := readName e
  match head.result with
  | .error failure => ⟨p, head.findings ++ [⟨e.line, failure.cause⟩], false⟩
  | .ok name =>
    let scope := p.nested setting name
    match (e.props Namespace.properties).single "description" with
    | .error err =>
      ⟨p.putNested scope p.catalogue, head.findings ++ [⟨e.line, .error err⟩], false⟩
    | .ok description =>
      let scope := { scope with description := description.getD scope.description }
      let g := fill ⟨scope, p.catalogue⟩
      let p := p.putNested g.population.scope g.population.catalogue
      if g.ok then ⟨p, head.findings ++ g.findings, true⟩
      else
        ⟨p, head.findings ++ g.findings ++
          [⟨e.line, .error (.invalidMembers scope.externalRef)⟩], false⟩

mutual

/-- Adds the content of an element whose property names are `properties`. -/
def add (setting : Setting) (properties : List String) (p : Population) : Element → Growth
  | ⟨tag, attrs, children, text, line⟩ =>
    (addNamespaces setting p children).andThen
      (addOwn setting properties ⟨tag, attrs, children, text, line⟩)

/-- Adds the nested namespaces among the elements. -/
def addNamespaces (setting : Setting) (p : Population) : List Element → Growth
  | [] => Growth.none p
  | e :: es =>
    (if e.tag == "ns" then
      addNested setting p e fun q => add setting Namespace.properties q e
    else Growth.none p).andThen fun p => addNamespaces setting p es

end

end Population

end WireSchema
