import WireSchema.Proofs.Schema.Kinds

/-! # Kinds in a session

If the check of a session succeeds, the fields of its schema are of the kinds that they are used as,
wherever they stand (`checked_fields_are_well_kinded`). -/

namespace WireSchema.Session

open Markup Schema

/-- **Fields are of the kinds that they are used as.** A check that succeeds leaves a schema in
which this is so: counts and lengths are read from integers, versions and lengths are integers, ids
of messages are enumerations, sizes and ids of frames have fields that can hold them, value layers
name fields of interfaces, and no interface has two versions. -/
theorem checked_fields_are_well_kinded (config : Config) (calls : List Call)
    (hok : (after config calls).validate.2 = true) :
    ∃ schema : Schema, (after config calls).validate.1.schema = some schema ∧
      schema.WellKinded := by
  obtain ⟨schema, hschema, hchecked⟩ := (reachable_after config calls).exists_checked hok
  exact ⟨schema, hschema, hchecked.wellKinded⟩

/-- A document with fields that have roles, some of them behind references, a list that is counted
by the field before it, and a frame. -/
def framedDocument : Element :=
  ⟨"schema", [("name", "P")],
    [⟨"int", [("name", "A"), ("type", "uint8")], [], "", 2⟩,
      ⟨"ref", [("name", "L"), ("field", "A"), ("semanticType", "length")], [], "", 3⟩,
      ⟨"enum", [("name", "E"), ("type", "uint8"), ("semanticType", "messageId")],
        [⟨"validValue", [("name", "V"), ("val", "1")], [], "", 5⟩], "", 4⟩,
      ⟨"interface", [("name", "I")],
        [⟨"ref", [("name", "W"), ("field", "A"), ("semanticType", "version")], [], "", 7⟩], "", 6⟩,
      ⟨"message", [("name", "M"), ("id", "E.V")],
        [⟨"ref", [("name", "N"), ("field", "A")], [], "", 9⟩,
          ⟨"list", [("name", "X"), ("element", "A"), ("countPrefix", "$N")], [], "", 10⟩], "", 8⟩,
      ⟨"frame", [("name", "F")],
        [⟨"size", [("name", "S"), ("field", "L")], [], "", 12⟩,
          ⟨"id", [("name", "D"), ("field", "E")], [], "", 13⟩,
          ⟨"value", [("name", "R"), ("interfaceFieldName", "W"), ("field", "A")], [], "", 14⟩,
          ⟨"payload", [("name", "Q")], [], "", 15⟩], "", 11⟩],
    "", 1⟩

/-- A session that has taken `framedDocument`. -/
def framedSession : Session := after ⟨none, 0, none, false⟩ [.element framedDocument]

/-- The sibling that the count of a list is read from. -/
def countSibling? (f : Field) : Option String :=
  match f.body with
  | .list _ _ (some (.named (.sibling name))) _ _ _ => some name
  | _ => none

theorem mem_prefixes_of_countSibling? {f : Field} {name : String}
    (h : countSibling? f = some name) : Prefix.named (.sibling name) ∈ f.body.prefixes := by
  unfold countSibling? at h
  split at h
  · rename_i hbody
    cases h
    rw [hbody]
    exact List.mem_cons_self
  · cases h

/-- The check of `framedDocument` succeeds. The count of its list is read from the sibling `N`, a
reference that leads to an integer. -/
theorem kinds_of_framedSession :
    framedSession.validate.2 = true ∧
    ∃ schema : Schema, framedSession.validate.1.schema = some schema ∧ schema.WellKinded ∧
      ∃ f siblings g, schema.Stands f siblings ∧
        Prefix.named (.sibling "N") ∈ f.body.prefixes ∧ siblings "N" = some g ∧ g.kind = .ref ∧
        schema.arena.endKind? g = some .int := by
  have hok : framedSession.validate.2 = true := by decide +kernel
  obtain ⟨schema, hschema, hkinds⟩ := checked_fields_are_well_kinded _ _ hok
  have heval : (framedSession.validate.1.schema.bind fun schema =>
      schema.root.messages.head?.bind fun m => m.fields[1]?.map fun f =>
        (countSibling? f, (siblingsIn m.fields "N").map Field.kind)) =
      some (some "N", some .ref) := by decide +kernel
  change framedSession.validate.1.schema = some schema at hschema
  rw [hschema, Option.bind_some] at heval
  obtain ⟨m, hm, heval⟩ := Option.bind_eq_some_iff.mp heval
  obtain ⟨f, hf, heval⟩ := Option.map_eq_some_iff.mp heval
  rw [Prod.mk.injEq, Option.map_eq_some_iff] at heval
  obtain ⟨hcount, g, hg, hkind⟩ := heval
  have hstands : schema.Stands f (siblingsIn m.fields) :=
    .declared .refl (.message (List.mem_of_mem_head? hm) (List.mem_of_getElem? hf))
  have hmem := mem_prefixes_of_countSibling? hcount
  refine ⟨hok, schema, hschema, hkinds, f, _, g, hstands, hmem, hg, hkind, ?_⟩
  have hsource := hkinds.source f _ hstands _ hmem
  rwa [Prefix.source?, hg, Option.bind_some] at hsource

end WireSchema.Session
