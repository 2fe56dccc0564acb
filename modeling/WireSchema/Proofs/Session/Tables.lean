import WireSchema.Proofs.Field.SetBits
import WireSchema.Proofs.Field.Tables
import WireSchema.Proofs.Session.Lookup

/-! # Enumerations and sets of a session

Every enumeration that is read lists the values that are declared for it, in tables that agree
(`enumerations_are_tabulated`), and every set the bits that are declared for it
(`sets_are_laid_out`). In every run, before and after the check, each enumeration and each set of
the schema was read from an element, into which the base of a field that reuses another one is
merged. -/

namespace WireSchema.Session

open Markup Schema Relation

variable {s : Session} {schema : Schema} {f : Field}

theorem Sourced.exists_readEnum (h : s.Sourced) (hschema : s.schema = some schema)
    (hf : schema.Contains f) {x : EnumField} (hx : f.enum? = some x) :
    ∃ ctx pos props e, (readEnum ctx f.core pos props e).result = .ok x := by
  obtain ⟨core, body⟩ := f
  cases body with
  | enum y =>
    obtain rfl : y = x := Option.some.inj hx
    have hread := h.isRead hschema hf (Or.inl rfl)
    obtain ⟨ctx, nested, pos, props, e, hbody⟩ := hread.exists_readBody
    obtain ⟨z, hz, heq⟩ := Pass.result_map_eq_ok.mp hbody
    obtain rfl : z = y := Body.enum.inj heq
    exact ⟨ctx, pos, props, e, hz⟩
  | _ => cases hx

theorem Sourced.exists_readSet (h : s.Sourced) (hschema : s.schema = some schema)
    (hf : schema.Contains f) {x : SetField} (hx : f.set? = some x) :
    ∃ ctx pos props e, (readSet ctx f.core pos props e).result = .ok x := by
  obtain ⟨core, body⟩ := f
  cases body with
  | set y =>
    obtain rfl : y = x := Option.some.inj hx
    have hread := h.isRead hschema hf (Or.inr rfl)
    obtain ⟨ctx, nested, pos, props, e, hbody⟩ := hread.exists_readBody
    obtain ⟨z, hz, heq⟩ := Pass.result_map_eq_ok.mp hbody
    obtain rfl : z = y := Body.set.inj heq
    exact ⟨ctx, pos, props, e, hz⟩
  | _ => cases hx

/-! ### Enumerations -/

/-- **Enumerations have tables that agree.** An enumeration that is read, whatever values are
declared for it, has them all in its table by names and in its table by numbers, and the tables
agree: a name has a number if and only if it is listed once for that number, and for no other one. A
number lists its names in the order of their declaration. Unless it is allowed, no two names share a
number. In every run, each enumeration of the schema is one that was read. -/
theorem enumerations_are_tabulated (x : EnumField) :
    (∀ ctx core pos props e, (readEnum ctx core pos props e).result = .ok x →
      readFlag props "nonUniqueAllowed" = .ok x.nonUniqueAllowed ∧
      (∀ c ∈ e.childrenNamed "validValue", (declaredValue? c).isSome = true) ∧
      x.Tabulates ((e.childrenNamed "validValue").filterMap declaredValue?)) ∧
    ∀ config calls schema f, (after config calls).schema = some schema → schema.Contains f →
      f.enum? = some x →
        ∃ ctx pos props e, (readEnum ctx f.core pos props e).result = .ok x := by
  refine ⟨fun ctx core pos props e h => ?_, fun config calls schema f hschema hf hx => ?_⟩
  · have hchecked := checked_of_readEnum ctx core pos props e (Pass.endsWith_false.mpr h)
    exact ⟨hchecked.permitted, hchecked.lists.isSome_read, hchecked.lists.tabulates⟩
  · exact (sourced_after config calls).exists_readEnum hschema hf hx

/-- An enumeration, and one that reuses it and has one more name for its first number. -/
def sharedDocument : Element :=
  ⟨"schema", [("name", "P")],
    [⟨"enum", [("name", "E"), ("type", "uint8")],
        [⟨"validValue", [("name", "A"), ("val", "1")], [], "", 3⟩,
          ⟨"validValue", [("name", "B"), ("val", "2")], [], "", 4⟩], "", 2⟩,
      ⟨"enum", [("name", "F"), ("reuse", "E"), ("nonUniqueAllowed", "true")],
        [⟨"validValue", [("name", "C"), ("val", "1")], [], "", 6⟩], "", 5⟩],
    "", 1⟩

/-- A session that has taken and checked `sharedDocument`. -/
def sharedSession : Session := after ⟨none, 0, none, false⟩ [.element sharedDocument, .validate]

/-- The number has the name from the base before the one that is declared with it, which has no
other number. -/
theorem tables_of_sharedSession :
    ∃ (schema : Schema) (f : Field) (x : EnumField), sharedSession.schema = some schema ∧
      schema.Contains f ∧ f.enum? = some x ∧ x.isUnique = false ∧ x.namesOf 1 = ["A", "C"] ∧
      (∃ declared, x.Tabulates declared) ∧ ∀ i, i ≠ 1 → "C" ∉ x.namesOf i := by
  have heval : (sharedSession.schema.bind fun schema => (schema.arena.get? 1).bind fun f =>
      f.enum?.bind fun x => (x.value? "C").map fun v => (x.isUnique, x.namesOf 1, v.value)) =
      some (false, ["A", "C"], 1) := by decide +kernel
  simp only [Option.bind_eq_some_iff, Option.map_eq_some_iff, Prod.mk.injEq] at heval
  obtain ⟨schema, hschema, f, hf, x, hx, v, hv, hunique, hnames, hvalue⟩ := heval
  have hcontains : schema.Contains f := ⟨f, Or.inl ⟨1, hf⟩, ReflTransGen.refl⟩
  obtain ⟨hread, hsession⟩ := enumerations_are_tabulated x
  obtain ⟨ctx, pos, props, e, hresult⟩ := hsession _ _ schema f hschema hcontains hx
  obtain ⟨-, -, htables⟩ := hread ctx f.core pos props e hresult
  exact ⟨schema, f, x, hschema, hcontains, hx, hunique, hnames, ⟨_, htables⟩,
    ((htables.agree "C" 1).mp ⟨v, hv, hvalue⟩).2⟩

/-! ### Sets -/

/-- **Sets are laid out by their bits.** A set that is read has between one and eight bytes, which
its type can hold, and between one bit and all those of its bytes. Its bits have names of their own
and indices below the number of bits, which are different unless they may be shared. The reserved
indices are in order, and are those that no bit has which is not reserved. In every run, each set of
the schema is one that was read. -/
theorem sets_are_laid_out (x : SetField) :
    (∀ ctx core pos props e, (readSet ctx core pos props e).result = .ok x →
      readFlag props "nonUniqueAllowed" = .ok x.nonUniqueAllowed ∧
      (∀ c ∈ e.childrenNamed "bit", (declaredBit? c).isSome = true) ∧
      x.LaidOut ((e.childrenNamed "bit").filterMap declaredBit?)) ∧
    ∀ config calls schema f, (after config calls).schema = some schema → schema.Contains f →
      f.set? = some x →
        ∃ ctx pos props e, (readSet ctx f.core pos props e).result = .ok x := by
  refine ⟨fun ctx core pos props e h => ?_, fun config calls schema f hschema hf hx => ?_⟩
  · have hchecked := checked_of_readSet ctx core pos props e h
    exact ⟨hchecked.permitted, hchecked.lists.isSome_read, hchecked.laidOut⟩
  · exact (sourced_after config calls).exists_readSet hschema hf hx

/-- A set of one byte with two bits of one index, one of them reserved, and another reserved bit. -/
def overlappingDocument : Element :=
  ⟨"schema", [("name", "P")],
    [⟨"set", [("name", "S"), ("type", "uint8"), ("nonUniqueAllowed", "true")],
        [⟨"bit", [("name", "A"), ("idx", "3"), ("reserved", "true")], [], "", 3⟩,
          ⟨"bit", [("name", "B"), ("idx", "3")], [], "", 4⟩,
          ⟨"bit", [("name", "C"), ("idx", "5"), ("reserved", "true")], [], "", 5⟩], "", 2⟩],
    "", 1⟩

/-- A session that has taken and checked `overlappingDocument`. -/
def overlappingSession : Session :=
  after ⟨none, 0, none, false⟩ [.element overlappingDocument, .validate]

/-- The index of the two bits is not reserved, and that of the third one is. -/
theorem bits_of_overlappingSession :
    ∃ (schema : Schema) (f : Field) (x : SetField), overlappingSession.schema = some schema ∧
      schema.Contains f ∧ f.set? = some x ∧ x.reservedIndices = [0, 1, 2, 4, 5, 6, 7] ∧
      (∃ declared, x.LaidOut declared) ∧ x.length ≤ x.type.maxLength ∧
      ∀ b ∈ x.bits, b.idx = 3 ∨ b.reserved = true := by
  have heval : (overlappingSession.schema.bind fun schema => (schema.arena.get? 0).bind fun f =>
      f.set?.map fun x => (x.reservedIndices, x.bits.map fun b => (b.name, b.idx, b.reserved))) =
      some ([0, 1, 2, 4, 5, 6, 7], [("A", 3, true), ("B", 3, false), ("C", 5, true)]) := by
    decide +kernel
  simp only [Option.bind_eq_some_iff, Option.map_eq_some_iff, Prod.mk.injEq] at heval
  obtain ⟨schema, hschema, f, hf, x, hx, hreserved, hbits⟩ := heval
  have hcontains : schema.Contains f := ⟨f, Or.inl ⟨0, hf⟩, ReflTransGen.refl⟩
  obtain ⟨hread, hsession⟩ := sets_are_laid_out x
  obtain ⟨ctx, pos, props, e, hresult⟩ := hsession _ _ schema f hschema hcontains hx
  obtain ⟨-, -, hlaid⟩ := hread ctx f.core pos props e hresult
  refine ⟨schema, f, x, hschema, hcontains, hx, hreserved, ⟨_, hlaid⟩, hlaid.storage.2.2, ?_⟩
  have hall : ∀ d ∈ x.bits.map fun b => (b.name, b.idx, b.reserved),
      d.2.1 = 3 ∨ d.2.2 = true := by
    rw [hbits]
    decide
  exact List.forall_mem_map.mp hall

end WireSchema.Session
