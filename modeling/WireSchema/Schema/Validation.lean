import WireSchema.Namespace.Validation
import WireSchema.Schema.Basic

/-! # Checking a schema

The checks of the whole tree of namespaces, and then that no two messages have the same id, unless
the schema allows it.
-/

namespace WireSchema.Schema

/-- The messages in order, each with the number of a message before it reported. `seen` are the
numbers so far with the messages that had them first. -/
def checkIds (seen : List (Int × String)) : List Message → Pass Bool
  | [] => pure true
  | m :: ms =>
    match m.id with
    | none => checkIds seen ms
    | some id =>
      match seen.find? (·.1 == id) with
      | none => checkIds ((id, m.externalRef) :: seen) ms
      | some first => do
        Pass.report m.line (.duplicateMessageId m.externalRef id first.2)
        let _ ← checkIds seen ms
        return false

/-- The numbers of messages differ, unless they need not. -/
def checkMessageIds (s : Schema) : Pass Bool :=
  if s.nonUniqueMsgIdAllowed then pure true else checkIds [] s.root.allMessages

/-- Checks a linked schema; the flag says that nothing failed. -/
def check (s : Schema) (versionDependentCode : Bool) : Pass Bool := do
  let scope : SchemaScope :=
    { root := s.root
      platforms := s.platforms
      interfaceFields := s.root.allInterfaces.flatMap fun i => i.fields.map (·.name) }
  let tree ← s.root.check ⟨s.arena, versionDependentCode⟩ scope
  let ids ← s.checkMessageIds
  return tree && ids

end WireSchema.Schema
