import WireSchema.Frame
import WireSchema.Interface
import WireSchema.Message
import WireSchema.Text.Sorted

/-! # Namespaces

A namespace holds fields, which live in the arena, interfaces, messages, frames and further
namespaces, each list in the order of names. A path leads through nested namespaces to a
declaration; the default interface is found by its empty name.
-/

namespace WireSchema

/-- Declarations under their names. The root has no name. -/
structure Namespace where
  name : String
  externalRef : String
  description : String
  fields : List (String × FieldId)
  interfaces : List Interface
  messages : List Message
  frames : List Frame
  namespaces : List Namespace

namespace Namespace

/-- A namespace without declarations. -/
def empty (name externalRef : String) : Namespace := ⟨name, externalRef, "", [], [], [], [], []⟩

/-- The namespace of everything. -/
def root : Namespace := empty "" ""

/-- The nested namespace with the name. -/
def child? (ns : Namespace) (name : String) : Option Namespace :=
  findNamed? Namespace.name name ns.namespaces

/-- The namespace that the path before the last name leads to, and the last name. -/
def scope? (ns : Namespace) : List String → Option (Namespace × String)
  | [] => none
  | [last] => some (ns, last)
  | first :: rest => (ns.child? first).bind fun n => n.scope? rest

/-- What the path leads to, `find` looking the last name up. -/
def locate? {α : Type} (ns : Namespace) (find : Namespace → String → Option α) (path : String) :
    Option α :=
  (ns.scope? (Literal.segments path)).bind fun p => find p.1 p.2

/-- The place of the field with the name in the namespace itself. -/
def ownField? (ns : Namespace) (name : String) : Option FieldId :=
  (findNamed? Prod.fst name ns.fields).map (·.2)

/-- The place of the field that the path leads to. -/
def findField? (ns : Namespace) (path : String) : Option FieldId := ns.locate? ownField? path

/-- The interface that the path leads to. -/
def findInterface? (ns : Namespace) (path : String) : Option Interface :=
  ns.locate? (fun n name => findNamed? Interface.name name n.interfaces) path

/-- The message that the path leads to. -/
def findMessage? (ns : Namespace) (path : String) : Option Message :=
  ns.locate? (fun n name => findNamed? Message.name name n.messages) path

/-- The frame that the path leads to. -/
def findFrame? (ns : Namespace) (path : String) : Option Frame :=
  ns.locate? (fun n name => findNamed? Frame.name name n.frames) path

/-- The namespace declares an interface without a name. -/
def hasDefaultInterface (ns : Namespace) : Bool := ns.interfaces.any (·.isDefault)

/-- The namespace with a default interface. -/
def addDefaultInterface (ns : Namespace) : Namespace :=
  if ns.hasDefaultInterface then ns
  else { ns with interfaces := Interface.default ns.externalRef :: ns.interfaces }

mutual

/-- The messages of the namespace, and then those of the nested ones. -/
def allMessages : Namespace → List Message
  | ⟨_, _, _, _, _, messages, _, namespaces⟩ => messages ++ allMessagesIn namespaces

/-- The messages of the namespaces. -/
def allMessagesIn : List Namespace → List Message
  | [] => []
  | n :: ns => n.allMessages ++ allMessagesIn ns

end

mutual

/-- The interfaces of the namespace, and then those of the nested ones. -/
def allInterfaces : Namespace → List Interface
  | ⟨_, _, _, _, interfaces, _, _, namespaces⟩ => interfaces ++ allInterfacesIn namespaces

/-- The interfaces of the namespaces. -/
def allInterfacesIn : List Namespace → List Interface
  | [] => []
  | n :: ns => n.allInterfaces ++ allInterfacesIn ns

end

mutual

/-- The fields of the namespace in the order of their names, and then those of the nested ones. -/
def allFields : Namespace → List FieldId
  | ⟨_, _, _, fields, _, _, _, namespaces⟩ => fields.map (·.2) ++ allFieldsIn namespaces

/-- The fields of the namespaces. -/
def allFieldsIn : List Namespace → List FieldId
  | [] => []
  | n :: ns => n.allFields ++ allFieldsIn ns

end

/-- The first field with the id of messages, which is or leads to an enumeration. -/
def messageIdField? (ns : Namespace) (a : Arena) : Option FieldId :=
  ns.allFields.find? fun id =>
    (a.get? id).any fun f =>
      f.core.semanticType == .messageId && ((a.resolved f).bind Field.enum?).isSome

end Namespace

end WireSchema
