import WireSchema.Namespace.Basic

/-! # Checking a namespace

The checks of fields, interfaces, messages, frames and nested namespaces in this order. Every
failure is reported, and the rest is checked all the same.
-/

namespace WireSchema

/-- What the checks of a namespace look at in the whole schema. -/
structure SchemaScope where
  root : Namespace
  platforms : List String
  interfaceFields : List String

namespace Namespace

/-- The fields of a namespace as siblings. -/
def siblings (a : Arena) (fields : List (String × FieldId)) : Siblings := fun name =>
  (findNamed? Prod.fst name fields).bind fun p => a.get? p.2

/-- Checks items one after the other; the flag says that none failed. -/
def checkAll {α : Type} (line : α → Nat) (check : α → Pass Unit) : List α → Pass Bool
  | [] => pure true
  | x :: xs => do
    let ok ← (check x).succeeds (line x)
    let rest ← checkAll line check xs
    return ok && rest

mutual

/-- Checks a namespace; the flag says that nothing failed. -/
def check (cx : CheckContext) (scope : SchemaScope) : Namespace → Pass Bool
  | ⟨_, _, _, fields, interfaces, messages, frames, namespaces⟩ => do
    let own := fields.filterMap fun p => cx.arena.get? p.2
    let fieldsOk ← checkAll (·.core.line) (fun f => f.check cx (siblings cx.arena fields)) own
    let interfacesOk ← checkAll Interface.line (Interface.check cx) interfaces
    let hasInterface (path : String) : Bool := (scope.root.findInterface? path).isSome
    let messagesOk ← checkAll Message.line (Message.check cx scope.platforms hasInterface) messages
    let framesOk ← checkAll Frame.line (Frame.check cx scope.interfaceFields) frames
    let nestedOk ← checkIn cx scope namespaces
    return fieldsOk && interfacesOk && messagesOk && framesOk && nestedOk

/-- Checks the namespaces. -/
def checkIn (cx : CheckContext) (scope : SchemaScope) : List Namespace → Pass Bool
  | [] => pure true
  | n :: ns => do
    let ok ← n.check cx scope
    let rest ← checkIn cx scope ns
    return ok && rest

end

end Namespace

end WireSchema
