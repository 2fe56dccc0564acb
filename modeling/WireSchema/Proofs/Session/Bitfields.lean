import WireSchema.Proofs.Field.BitMembers
import WireSchema.Proofs.Schema.Kinds

/-! # Bitfields of a checked schema

A member of a bitfield should lead to an integer of fixed length, an enumeration or a set, and have
at most the bits of that field (`Arena.HasBits`). After a check that succeeds, a member that is
declared in the bitfield does. A member that is a reference leads to such a field, but its bits were
not compared with those of the field, nor was it looked at whether an integer has a fixed length
(`bit_members_fit`). -/

namespace WireSchema

open Markup Relation

/-! ### Bits of a field -/

namespace Arena

variable {a : Arena} {m t : Field}

/-- The field has one length, and the member at most its bits. -/
structure BitsWithin (a : Arena) (m t : Field) : Prop where
  fixed : ∀ i, t.int? = some i → i.type.isVariable = false
  exact : a.minLength t = a.maxLength t
  bits : m.bitLength ≤ 8 * a.maxLength t

/-- The member leads to an integer, an enumeration or a set, which has one length, and it has at
most the bits of that field. -/
def HasBits (a : Arena) (m : Field) : Prop :=
  ∃ t, a.resolved m = some t ∧ (t.kind = .int ∨ t.kind = .enum ∨ t.kind = .set) ∧ a.BitsWithin m t

instance (a : Arena) (m t : Field) : Decidable (a.BitsWithin m t) :=
  decidable_of_iff ((∀ i ∈ t.int?, i.type.isVariable = false) ∧ a.minLength t = a.maxLength t ∧
      m.bitLength ≤ 8 * a.maxLength t)
    ⟨fun h => ⟨h.1, h.2.1, h.2.2⟩, fun h => ⟨h.fixed, h.exact, h.bits⟩⟩

instance (a : Arena) (m : Field) : Decidable (a.HasBits m) :=
  decidable_of_iff (∃ t ∈ a.resolved m,
    (t.kind = .int ∨ t.kind = .enum ∨ t.kind = .set) ∧ a.BitsWithin m t) Iff.rfl

theorem exists_minLength_eq_via (a : Arena) (f : Field) :
    ∃ via, a.minLength f = f.minLengthVia via := by
  unfold minLength
  cases a.size <;> exact ⟨_, rfl⟩

theorem exists_maxLength_eq_via (a : Arena) (f : Field) :
    ∃ via, a.maxLength f = f.maxLengthVia a via := by
  unfold maxLength
  cases a.size <;> exact ⟨_, rfl⟩

/-- An integer, enumeration or set whose bits fit has at most the bits of its own bytes. -/
theorem bitsWithin_self (a : Arena) (hkind : m.kind = .int ∨ m.kind = .enum ∨ m.kind = .set)
    (h : m.body.FitsBits) : a.BitsWithin m m := by
  obtain ⟨least, hmin⟩ := a.exists_minLength_eq_via m
  obtain ⟨greatest, hmax⟩ := a.exists_maxLength_eq_via m
  obtain ⟨core, body⟩ := m
  change body.FitsBits at h
  cases body with
  | int i =>
    obtain ⟨hfixed, hbits⟩ := h
    rw [Field.minLengthVia, IntField.minLength, hfixed] at hmin
    rw [Field.maxLengthVia] at hmax
    refine ⟨fun j hj => ?_, hmin.trans hmax.symm, ?_⟩
    · cases hj
      exact hfixed
    · rw [hmax, Nat.mul_comm]
      exact hbits
  | enum x =>
    rw [Field.minLengthVia] at hmin
    rw [Field.maxLengthVia] at hmax
    refine ⟨fun i hi => ?_, hmin.trans hmax.symm, ?_⟩
    · cases hi
    · rw [hmax, Nat.mul_comm]
      exact h
  | set x =>
    rw [Field.minLengthVia] at hmin
    rw [Field.maxLengthVia] at hmax
    refine ⟨fun i hi => ?_, hmin.trans hmax.symm, ?_⟩
    · cases hi
    · rw [hmax, Nat.mul_comm]
      exact h
  | _ => simp [Field.kind, Field.body, Body.kind] at hkind

end Arena

/-! ### Members -/

namespace Schema

variable {s : Schema} {f m : Field}

/-- In a linked schema the members of bitfields have bits that fit, as they were read. -/
theorem Built.bitMembersFit_link (hs : s.Built) (h : s.link.1.Contains f) : f.BitMembersFit := by
  obtain ⟨g, hg, hf⟩ := h
  have hread : ∀ f, s.HasField f → f.Everywhere Field.BitMembersFit :=
    hs.forall_hasField
      (fun ctx levels pos e => (gives_bitMembers_readField ctx levels pos e).imp fun _ h => h.1)
      fun ctx levels e =>
        (yields_bitMembers_readMerged (gives_bitMembers_readField ctx levels) _ e).imp
          fun _ h => h.1
  refine forall_hasField_link (fun g => ?_) (fun a => ?_) hread g hg f hf
  · exact Field.everywhere_iff_of_inner (Field.inner_mapRefs g) (Field.bitMembersFit_mapRefs_iff g)
  · exact Field.everywhere_iff_of_inner (Field.inner_complete a) (Field.bitMembersFit_complete_iff a)

namespace Checked

theorem fitsBits (hs : s.Checked) (hf : s.Contains f) (hkind : f.kind = .bitfield)
    (hm : m ∈ f.members) : m.body.FitsBits := by
  obtain ⟨built, hbuilt, rfl, -⟩ := hs
  exact hbuilt.bitMembersFit_link hf hkind m hm

/-- **Members of bitfields lead to integers, enumerations and sets.** -/
theorem bitMember (hs : s.Checked) (hf : s.Contains f) (hkind : f.kind = .bitfield)
    (hm : m ∈ f.members) :
    ∃ t, s.arena.resolved m = some t ∧ (t.kind = .int ∨ t.kind = .enum ∨ t.kind = .set) := by
  obtain ⟨t, ht⟩ := hs.exists_resolved (hf.inner (f.members_subset_inner hm))
  obtain ⟨siblings, hstands⟩ := (contains_iff_exists_stands hs.indexed).mp hf
  obtain ⟨-, -, -, -, dependent, hcheck⟩ := hs
  exact ⟨t, ht, (hstands.passes hcheck).bitMembers hkind hm ht⟩

/-- **A member that is declared in the bitfield has at most the bits of its type.** -/
theorem hasBits_of_declared (hs : s.Checked) (hf : s.Contains f) (hkind : f.kind = .bitfield)
    (hm : m ∈ f.members) (hdeclared : m.kind ≠ .ref) : s.arena.HasBits m := by
  obtain ⟨t, ht, hbits⟩ := hs.bitMember hf hkind hm
  have hself : s.arena.resolved m = some m :=
    Arena.resolved_of_not_ref (not_not.mp (mt Field.kind_eq_ref_iff.mpr hdeclared))
  obtain rfl : t = m := Option.some.inj (ht.symm.trans hself)
  exact ⟨t, ht, hbits, s.arena.bitsWithin_self hbits (hs.fitsBits hf hkind hm)⟩

/-- The number of bits of a reference says nothing about the field that it leads to. -/
theorem bitLength_of_ref (hs : s.Checked) (hf : s.Contains f) (hkind : f.kind = .bitfield)
    (hm : m ∈ f.members) (href : m.kind = .ref) : 1 ≤ m.bitLength ∧ m.bitLength ≤ 64 := by
  have hfits := hs.fitsBits hf hkind hm
  obtain ⟨core, body⟩ := m
  cases body with
  | ref target bitLength =>
    obtain ⟨n, rfl, hn⟩ := hfits
    exact hn
  | _ => cases href

end Checked

end Schema

/-! ### Sessions -/

namespace Session

open Schema

/-- **Members of bitfields have bits.** After a check that succeeds, each member of a bitfield, at
any depth, leads to an integer, an enumeration or a set. If it is declared in the bitfield, that
field has one length, and the member at most its bits. If it is a reference, it has between 1 and 64
bits, whatever it leads to. So all members of a bitfield have at most the bits of the fields that
they lead to, if and only if the references among them do. -/
theorem bit_members_fit (config : Config) (calls : List Call)
    (hok : (after config calls).validate.2 = true) :
    ∃ schema : Schema, (after config calls).validate.1.schema = some schema ∧
      ∀ f, schema.Contains f → f.kind = .bitfield →
        (∀ m ∈ f.members, ∃ t, schema.arena.resolved m = some t ∧
          (t.kind = .int ∨ t.kind = .enum ∨ t.kind = .set)) ∧
        (∀ m ∈ f.members, m.kind ≠ .ref → schema.arena.HasBits m) ∧
        (∀ m ∈ f.members, m.kind = .ref → 1 ≤ m.bitLength ∧ m.bitLength ≤ 64) ∧
        ((∀ m ∈ f.members, schema.arena.HasBits m) ↔ ∀ m ∈ f.members, m.kind = .ref →
          ∀ t, schema.arena.resolved m = some t → schema.arena.BitsWithin m t) := by
  obtain ⟨schema, hschema, hs⟩ := (reachable_after config calls).exists_checked hok
  refine ⟨schema, hschema, fun f hf hkind => ⟨fun m => hs.bitMember hf hkind,
    fun m => hs.hasBits_of_declared hf hkind, fun m => hs.bitLength_of_ref hf hkind, ?_⟩⟩
  constructor
  · rintro hall m hm - t ht
    obtain ⟨t', ht', -, hbits⟩ := hall m hm
    obtain rfl : t = t' := Option.some.inj (ht.symm.trans ht')
    exact hbits
  · intro hrefs m hm
    by_cases href : m.kind = .ref
    · obtain ⟨t, ht, hbits⟩ := hs.bitMember hf hkind hm
      exact ⟨t, ht, hbits, hrefs m hm href t ht⟩
    · exact hs.hasBits_of_declared hf hkind hm href

/-- A session that has taken a document with an integer of varying length, one of a single byte,
and a bitfield with the members. -/
def bitfieldSession (members : List Element) : Session :=
  after ⟨none, 0, none, false⟩
    [.element ⟨"schema", [("name", "P")],
      [⟨"int", [("name", "V"), ("type", "uintvar")], [], "", 2⟩,
        ⟨"int", [("name", "T"), ("type", "uint8")], [], "", 3⟩,
        ⟨"bitfield", [("name", "B")], members, "", 4⟩], "", 1⟩]

/-- A reference among the members of a bitfield. -/
def bitReference (name target bits : String) : Element :=
  ⟨"ref", [("name", name), ("field", target), ("bitLength", bits)], [], "", 5⟩

/-- The kind of the field at a place and those of its members, and for each of these whether it has
at most the bits of the field that it leads to. -/
def bitsAt? (s : Schema) (i : FieldId) : Option (FieldKind × List FieldKind × List Bool) :=
  (s.arena.get? i).map fun f =>
    (f.kind, f.members.map Field.kind, f.members.map fun m => decide (s.arena.HasBits m))

theorem hasBits_of_bitsAt? {s : Schema} {i : FieldId} {kind : FieldKind} {kinds : List FieldKind}
    {bits : List Bool} (h : bitsAt? s i = some (kind, kinds, bits)) :
    ∃ f, s.Contains f ∧ f.kind = kind ∧ f.members.map Field.kind = kinds ∧
      ∀ m ∈ f.members, decide (s.arena.HasBits m) ∈ bits := by
  obtain ⟨f, hf, h⟩ := Option.map_eq_some_iff.mp h
  simp only [Prod.mk.injEq] at h
  obtain ⟨hkind, hkinds, rfl⟩ := h
  exact ⟨f, ⟨f, Or.inl ⟨i, hf⟩, ReflTransGen.refl⟩, hkind, hkinds,
    fun m hm => List.mem_map_of_mem hm⟩

/-- A session with a bitfield of an integer and a reference, which share a byte. -/
def narrowSession : Session :=
  bitfieldSession
    [⟨"int", [("name", "a"), ("type", "uint8"), ("bitLength", "4")], [], "", 5⟩,
      bitReference "b" "T" "4"]

/-- The integer is declared in the bitfield, so it has at most its bits. The reference has no more
bits than the byte that it leads to, so this holds of all members. -/
theorem bits_of_narrowSession :
    narrowSession.validate.2 = true ∧
    ∃ schema f, narrowSession.validate.1.schema = some schema ∧ schema.Contains f ∧
      f.kind = .bitfield ∧ f.members.map Field.kind = [.int, .ref] ∧
      ∀ m ∈ f.members, schema.arena.HasBits m := by
  have hok : narrowSession.validate.2 = true := by decide +kernel
  have heval : narrowSession.validate.1.schema.bind (bitsAt? · 2) =
      some (.bitfield, [.int, .ref], [true, true]) := by decide +kernel
  obtain ⟨schema, hschema, hall⟩ := bit_members_fit _ _ hok
  change narrowSession.validate.1.schema = some schema at hschema
  rw [hschema, Option.bind_some] at heval
  obtain ⟨f, hf, hkind, hkinds, hbits⟩ := hasBits_of_bitsAt? heval
  refine ⟨hok, schema, f, hschema, hf, hkind, hkinds, (hall f hf hkind).2.2.2.mpr ?_⟩
  intro m hm _ t ht
  obtain ⟨t', ht', -, hwithin⟩ : schema.arena.HasBits m := by simpa using hbits m hm
  obtain rfl : t = t' := Option.some.inj (ht.symm.trans ht')
  exact hwithin

/-- A session with a bitfield of two references: to an integer of varying length, and to a byte,
from which more bits are taken than it has. -/
def wideSession : Session := bitfieldSession [bitReference "a" "V" "8", bitReference "b" "T" "16"]

/-- The check takes both references, although neither has at most the bits of a field with one
length. -/
theorem bits_of_wideSession :
    wideSession.validate.2 = true ∧
    ∃ schema f, wideSession.validate.1.schema = some schema ∧ schema.Contains f ∧
      f.kind = .bitfield ∧ f.members.map Field.kind = [.ref, .ref] ∧
      ∀ m ∈ f.members, ¬ schema.arena.HasBits m := by
  have heval : wideSession.validate.1.schema.bind (bitsAt? · 2) =
      some (.bitfield, [.ref, .ref], [false, false]) := by decide +kernel
  obtain ⟨schema, hschema, heval⟩ := Option.bind_eq_some_iff.mp heval
  obtain ⟨f, hf, hkind, hkinds, hbits⟩ := hasBits_of_bitsAt? heval
  refine ⟨by decide +kernel, schema, f, hschema, hf, hkind, hkinds, fun m hm => ?_⟩
  simpa using hbits m hm

end Session

end WireSchema
