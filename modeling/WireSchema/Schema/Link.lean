import WireSchema.Namespace.Traversal
import WireSchema.Schema.Basic
import WireSchema.Schema.Cycle

/-! # Linking a schema

Once all documents are added, references are bound to the fields that their paths lead to, cycles
are broken, fields take the names of their targets, symbolic message ids get their numbers, and a
schema without any interface gets a default one.
-/

namespace WireSchema.Schema

/-- The reference bound to the field that its path leads to from the root. -/
def bind (root : Namespace) (r : FieldRef) : FieldRef :=
  { r with target := root.findField? r.path }

/-- The error about a reference whose path leads to no field. -/
def unresolved? (root : Namespace) (r : FieldRef) : Option Finding :=
  match root.findField? r.path with
  | some _ => none
  | none => some ⟨r.line, .error (.unresolvedReference r.path)⟩

/-- The references of the schema: those in the arena first. -/
def refs (s : Schema) : List FieldRef :=
  s.arena.fields.toList.flatMap Field.refs ++ s.root.refs

/-- The schema with another arena. -/
def withArena (s : Schema) (a : Arena) : Schema :=
  { s with catalogue := { s.catalogue with arena := a } }

/-- Binds every reference. -/
def bindRefs (s : Schema) : Schema × List Finding :=
  let fields := s.arena.fields.map (Field.mapRefs (bind s.root))
  ({ s.withArena ⟨fields⟩ with root := s.root.mapRefs (bind s.root) },
    s.refs.filterMap (unresolved? s.root))

/-- The number of a value of the enumeration that the path leads to. -/
def enumNumber? (root : Namespace) (a : Arena) (path value : String) : Option Int :=
  ((((root.findField? path).bind a.get?).bind a.resolved).bind Field.enum?).bind fun e =>
    (e.value? value).map (·.value)

/-- The number of a symbolic id: the path of an enumeration, relative to the namespace or from the
root, a dot, and the name of a value. -/
def symbolicId? (root : Namespace) (a : Arena) (scope spec : String) : Option Int :=
  (Text.cutLastString '.' spec).bind fun p =>
    let relative :=
      if scope.isEmpty then none else enumNumber? root a s!"{scope}.{p.1}" p.2
    relative.or (enumNumber? root a p.1 p.2)

/-- The number of a message, if its id has one. -/
def messageId? (root : Namespace) (a : Arena) (m : Message) : Option Int :=
  m.id.or (symbolicId? root a m.scope m.idSpec)

/-- The error about a message whose id has no number. -/
def unknownId? (m : Message) : Option Finding :=
  match m.id with
  | some _ => none
  | none => some ⟨m.line, .error (.unknownMessageId m.name m.idSpec)⟩

/-- The numbers that are still to be given to messages, and the errors about messages without. -/
structure Numbering where
  ids : List (Option Int)
  findings : List Finding

/-- Gives the next number to the message. When there are no more, the message stays as it is. -/
def numberNext (m : Message) : StateM Numbering Message := do
  match (← get).ids with
  | [] => return m
  | id :: ids =>
    let m := { m with id }
    modify fun n => ⟨ids, n.findings ++ (unknownId? m).toList⟩
    return m

/-- Finds the numbers of all messages, and then gives them to the messages one after the other. -/
def resolveIds (s : Schema) : Schema × List Finding :=
  let ids := s.root.allMessages.map (messageId? s.root s.arena)
  let r := (s.root.traverseMessages numberNext).run ⟨ids, []⟩
  ({ s with root := r.1 }, r.2.findings)

/-- Completes the fields in the arena, and then those in the namespaces. -/
def completeFields (s : Schema) : Schema × List Finding :=
  let a := s.arena.complete
  let r := s.root.complete a.1
  ({ s.withArena a.1 with root := r.1 }, a.2 ++ r.2)

/-- Links the schema. -/
def link (s : Schema) : Schema × List Finding :=
  let bound := s.bindRefs
  let cut := bound.1.arena.breakCycles
  let completed := (bound.1.withArena cut.1).completeFields
  let numbered := completed.1.resolveIds
  let s := numbered.1
  let s := if s.root.allInterfaces.isEmpty then { s with root := s.root.addDefaultInterface } else s
  (s, bound.2 ++ (cut.2 ++ (completed.2 ++ numbered.2)))

end WireSchema.Schema
