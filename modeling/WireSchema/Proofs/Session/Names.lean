import WireSchema.Proofs.Schema.Names

/-! # Names in a session

If the check of a session succeeds, all fields of its schema have names, also those that were
declared without one, and fields that stand side by side have different ones
(`checked_fields_are_well_named`). -/

namespace WireSchema.Session

open Markup Schema

/-- **Fields have names, and different ones side by side.** A check that succeeds leaves a schema in
which every field has a name, at any depth, and in which the members of a field, the fields of a
message, those of an interface and those of a namespace have different names. -/
theorem checked_fields_are_well_named (config : Config) (calls : List Call)
    (hok : (after config calls).validate.2 = true) :
    ∃ schema : Schema, (after config calls).validate.1.schema = some schema ∧
      schema.WellNamed := by
  obtain ⟨schema, hschema, hchecked⟩ := (reachable_after config calls).exists_checked hok
  exact ⟨schema, hschema, hchecked.wellNamed⟩

/-- A reference without a name. -/
def namelessRef (target : String) (line : Nat) : Element :=
  ⟨"ref", [("field", target)], [], "", line⟩

/-- A document with references that have no names: as members, as the element and the count of a
list, in an interface, in a message and in a layer. -/
def namelessDocument : Element :=
  ⟨"schema", [("name", "P")],
    [⟨"int", [("name", "T"), ("type", "uint8")], [], "", 2⟩,
      ⟨"int", [("name", "U"), ("type", "uint8")], [], "", 3⟩,
      ⟨"bundle", [("name", "B")], [namelessRef "T" 5, namelessRef "U" 6], "", 4⟩,
      ⟨"list", [("name", "L")], [namelessRef "B" 8, ⟨"countPrefix", [], [namelessRef "U" 9], "", 9⟩], "", 7⟩,
      ⟨"interface", [("name", "I")], [namelessRef "U" 11], "", 10⟩,
      ⟨"message", [("name", "M"), ("id", "1")], [namelessRef "T" 13, namelessRef "L" 14], "", 12⟩,
      ⟨"frame", [("name", "F")],
        [⟨"size", [("name", "S")], [namelessRef "T" 16], "", 16⟩,
          ⟨"payload", [("name", "Q")], [], "", 17⟩], "", 15⟩],
    "", 1⟩

/-- A session that has taken `namelessDocument`. -/
def namelessSession : Session := after ⟨none, 0, none, false⟩ [.element namelessDocument]

/-- The names of the fields inside of the field at a place of the arena. -/
def innerNames? (session : Session) (i : FieldId) : Option (List String) :=
  session.schema.bind fun s => (s.arena.get? i).map fun f => f.inner.map Field.name

/-- The fields inside of the list of `namelessDocument` have no names as it is read. The check gives
them the names of their targets. -/
theorem names_of_namelessSession :
    namelessSession.validate.2 = true ∧
    innerNames? namelessSession 3 = some ["", ""] ∧
    innerNames? namelessSession.validate.1 3 = some ["B", "U"] ∧
    ∃ schema : Schema, namelessSession.validate.1.schema = some schema ∧ schema.WellNamed := by
  have hok : namelessSession.validate.2 = true := by decide +kernel
  refine ⟨hok, by decide +kernel, by decide +kernel, ?_⟩
  unfold namelessSession at hok ⊢
  exact checked_fields_are_well_named _ _ hok

end WireSchema.Session
