import WireSchema.Field.Declaration
import WireSchema.Field.Validation

/-! # Frames

A frame is a chain of layers, the outermost one first, around the payload of a message. A layer
reads and writes one field, except for the payload. `Frame.compositionFault?` finds what keeps
layers from going together: there is one payload and at most one id layer, names differ, and a
checksum covers what lies between it and another layer on the right side of it.
-/

namespace WireSchema

open Markup

/-- How a checksum is computed; a custom one is known by its name only. -/
inductive ChecksumAlg
  | sum | crcCcitt | crc16 | crc32
  | custom (name : String)
  deriving DecidableEq, Repr

/-- What a checksum covers: from an earlier layer up to it, or from it to the end of a later
layer. -/
inductive ChecksumRange
  | since (layer : String)
  | until (layer : String)
  deriving DecidableEq, Repr

/-- The kinds of layers with what they have besides a field. -/
inductive LayerKind
  | sync
  | size
  | id
  | value (interfaceFieldName : String) (pseudo : Bool)
  | checksum (alg : ChecksumAlg) (range : ChecksumRange) (verifyBeforeRead : Bool)
  | payload
  deriving DecidableEq, Repr

/-- The tag that declares a layer of the kind. -/
def LayerKind.tag : LayerKind → String
  | .sync => "sync"
  | .size => "size"
  | .id => "id"
  | .value .. => "value"
  | .checksum .. => "checksum"
  | .payload => "payload"

/-- The tags that declare layers. -/
def layerTags : List String := ["sync", "size", "id", "value", "checksum", "payload"]

/-- One layer. Only the payload has no field. -/
structure Layer where
  name : String
  description : String
  kind : LayerKind
  field : Option Part
  line : Nat

/-- The layers around the payload of a message, the outermost one first. -/
structure Frame where
  name : String
  externalRef : String
  description : String
  layers : List Layer
  line : Nat

/-! ### Layers -/

namespace Layer

/-- The properties of a layer with the tag. -/
def properties (tag : String) : List String :=
  ["name", "description", "field"] ++
    if tag == "value" then ["interfaceFieldName", "pseudo"]
    else if tag == "checksum" then ["alg", "algName", "from", "until", "verifyBeforeRead"]
    else []

/-- The way of computing a checksum that a property names. -/
def readAlg (alg : String) (algName : Option String) : Except SchemaError ChecksumAlg :=
  match alg with
  | "sum" => .ok .sum
  | "crc-ccitt" => .ok .crcCcitt
  | "crc-16" => .ok .crc16
  | "crc-32" => .ok .crc32
  | "custom" =>
    match algName with
    | none => .error (.missingProperty "algName")
    | some name =>
      if Literal.isName name then .ok (.custom name) else .error (.unexpectedValue "algName" name)
  | other => .error (.unexpectedValue "alg" other)

/-- What a checksum covers. -/
def readRange (name : String) (props : Props) : Except SchemaError ChecksumRange := do
  match ← props.single "from", ← props.single "until" with
  | some layer, none => return .since layer
  | none, some layer => return .until layer
  | none, none => throw (.missingProperty "from")
  | some _, some _ => throw (.invalid name .fromAndUntil)

/-- Reads what a layer with the tag has besides a field. -/
def readKind (tag name : String) (props : Props) : Except SchemaError LayerKind :=
  match tag with
  | "sync" => .ok .sync
  | "size" => .ok .size
  | "id" => .ok .id
  | "payload" => .ok .payload
  | "value" => do
    let interfaceFieldName ← props.required "interfaceFieldName"
    let pseudo ← readFlag props "pseudo"
    return .value interfaceFieldName pseudo
  | "checksum" => do
    let range ← readRange name props
    let rawAlg ← props.required "alg"
    let algName ← props.single "algName"
    let alg ← readAlg rawAlg algName
    let verifyBeforeRead ← readFlag props "verifyBeforeRead"
    return .checksum alg range verifyBeforeRead
  | other => .error (.unknownFieldKind other)

/-- Reads the field of a layer: by its path, or a single field inside. -/
def readField (nested : NestedReader) (name : String) (named : Option String) (e : Element) :
    Pass (Option Part) :=
  match named, fieldsInside e "field" with
  | none, [] => pure none
  | some path, [] => do return some (.reference (← readRef path e.line))
  | none, [field] => do return some (.inline (← nested (.inside .always) field))
  | _, _ => Pass.fail (.invalid name .layerFieldNotOnce)

/-- Reads a layer. -/
def read (ctx : Context) (e : Element) : Pass Layer := do
  let names := properties e.tag
  let props := e.props names
  let name ← props.required "name"
  checkName name
  let kind ← readKind e.tag name props
  let field ← readField (readInside ctx e) name (← props.single "field") e
  Pass.require (!(kind == .payload && field.isSome)) (.invalid name .payloadWithField)
  Pass.require (kind == .payload || field.isSome) (.missingProperty "field")
  Pass.warnAll ((props.unknown names).map fun key => (e.line, .unknownProperty e.tag key))
  let description ← props.textOf "description"
  return { name, description, kind, field, line := e.line }

/-- The layer is the payload. -/
def isPayload (l : Layer) : Bool := l.kind == .payload

/-- The layer feeds one of the fields with a value that is not on the wire. -/
def isPseudoVersion (l : Layer) (versionFields : List String) : Bool :=
  match l.kind with
  | .value name true => versionFields.contains name
  | _ => false

/-- The field of the layer, if it has one and it is known. -/
def field? (l : Layer) (a : Arena) : Option Field := l.field.bind a.partField?

/-- The references of the layer. -/
def refs (l : Layer) : List FieldRef :=
  match l.field with
  | none => []
  | some p => p.refs

/-- The layer with its references changed. -/
def mapRefs (g : FieldRef → FieldRef) (l : Layer) : Layer :=
  { l with field := l.field.map (·.mapRefs g) }

/-- A field of the kind can be that of the layer. -/
def fits (l : Layer) (k : FieldKind) : Bool :=
  match l.kind with
  | .size => k == .int
  | .id => k == .int || k == .enum
  | _ => true

/-- Checks a layer of the frame: a value layer feeds a field of an interface, and sizes and ids have
fields that can be numbers. -/
def check (cx : CheckContext) (interfaceFields : List String) (frame : String) (l : Layer) :
    Pass Unit := do
  if let some (.inline f) := l.field then
    f.check cx noSiblings
  if let .value name _ := l.kind then
    Pass.require (interfaceFields.contains name)
      (.layerComposition frame (.unknownInterfaceField l.name name))
  match (l.field? cx.arena).bind cx.arena.resolved with
  | none => pure ()
  | some f =>
    Pass.require (l.fits f.kind)
      (.layerComposition frame (.unfitField l.kind.tag l.name f.kind))

end Layer

/-! ### Frames -/

namespace Frame

/-- The properties of a frame. -/
def properties : List String := ["name", "description"]

/-- The place of the layer with the name. -/
def position? (layers : List Layer) (name : String) : Option Nat :=
  layers.findIdx? (·.name == name)

/-- The layer that a checksum names lies on the right side of it. -/
def coversRightSide (layers : List Layer) (index : Nat) : ChecksumRange → Bool
  | .since target => (position? layers target).any (· < index)
  | .until target => (position? layers target).any (· > index)

/-- The layer that a checksum names. -/
def rangeTarget : ChecksumRange → String
  | .since target => target
  | .until target => target

/-- What is wrong with the layer at a place among all of them. -/
def layerFault? (layers : List Layer) (index : Nat) (l : Layer) : Option LayerFault :=
  if (layers.take index).any (·.name == l.name) then some (.repeatedName l.name)
  else match l.kind with
    | .checksum _ range _ =>
      if coversRightSide layers index range then none
      else some (.wrongSide l.name (rangeTarget range))
    | _ => none

/-- The first reason why the layers do not go together. -/
def compositionFault? (layers : List Layer) : Option LayerFault :=
  let payloads := layers.countP (·.isPayload)
  if payloads != 1 then some (.payloadCount payloads)
  else if layers.countP (·.kind == .id) > 1 then some .severalIds
  else layers.zipIdx.findSome? fun p => layerFault? layers p.2 p.1

/-- The children that declare layers, directly or inside of a wrapper, and others among them. -/
def declared (e : Element) : List Element :=
  e.children.flatMap fun c => if c.tag == "layers" then c.children else [c]

/-- Reads the layers, those that can be read in order; the flag says that all could. -/
def readLayers (ctx : Context) : List Element → Pass (List Layer × Bool)
  | [] => pure ([], true)
  | child :: rest => do
    if layerTags.contains child.tag then
      let layer ← (Layer.read ctx child).settled child.line
      let (layers, ok) ← readLayers ctx rest
      match layer with
      | some l => return (l :: layers, ok)
      | none => return (layers, false)
    else
      unless child.isPropertyChild properties do
        Pass.warn child.line (.unexpectedChild "frame" child.tag)
      readLayers ctx rest

/-- Reads a frame. -/
def read (ctx : Context) (e : Element) : Pass Frame := do
  let props := e.props properties
  let name ← props.required "name"
  checkName name
  let externalRef := ctx.externalRef name
  let (layers, ok) ← readLayers ctx (declared e)
  Pass.require ok (.invalidMembers externalRef)
  let description ← props.textOf "description"
  if let some fault := compositionFault? layers then
    Pass.fail (.layerComposition externalRef fault)
  return { name, externalRef, description, layers, line := e.line }

/-- The layer with the name. -/
def layer? (f : Frame) (name : String) : Option Layer := f.layers.find? (·.name == name)

/-- The payload. -/
def payload? (f : Frame) : Option Layer := f.layers.find? (·.isPayload)

/-- The layer with the id of the message. -/
def idLayer? (f : Frame) : Option Layer := f.layers.find? (·.kind == .id)

/-- Some layer feeds one of the fields with a version that is not on the wire. -/
def hasPseudoVersion (f : Frame) (versionFields : List String) : Bool :=
  f.layers.any (·.isPseudoVersion versionFields)

/-- Checks the layers of the frame; the flag says that none failed. -/
def checkLayers (cx : CheckContext) (interfaceFields : List String) (frame : String) :
    List Layer → Pass Bool
  | [] => pure true
  | l :: ls => do
    let ok ← (l.check cx interfaceFields frame).succeeds l.line
    let rest ← checkLayers cx interfaceFields frame ls
    return ok && rest

/-- Checks a frame. -/
def check (cx : CheckContext) (interfaceFields : List String) (f : Frame) : Pass Unit := do
  let ok ← checkLayers cx interfaceFields f.externalRef f.layers
  Pass.require ok (.invalidMembers f.externalRef)

end Frame

end WireSchema
