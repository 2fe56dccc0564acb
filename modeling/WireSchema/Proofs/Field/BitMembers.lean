import WireSchema.Proofs.Field.Declared
import WireSchema.Proofs.Field.Members
import WireSchema.Proofs.Field.Passed

/-! # Members of bitfields

A member of a bitfield has a number of bits. An integer, enumeration or set that is declared in the
bitfield has no more of them than its type, which does not vary in length; of a reference only the
number is known (`Body.FitsBits`). Whatever is read has such members, at any depth
(`gives_bitMembers_readField`), and linking changes nothing about it. When a bitfield passes its
check, its references lead to integers, enumerations and sets (`Field.Passes.bitMembers`), and no
more was looked at. -/

namespace WireSchema

open Markup

/-- An integer, enumeration or set has at most the bits of its type, which does not vary in length;
a reference has between 1 and 64 bits. -/
def Body.FitsBits : Body → Prop
  | .int i => i.type.isVariable = false ∧ i.bitLength ≤ i.length * 8
  | .enum x => x.bitLength ≤ x.length * 8
  | .set s => s.bitLength ≤ s.length * 8
  | .ref _ bitLength => ∃ n, bitLength = some n ∧ 1 ≤ n ∧ n ≤ 64
  | _ => True

/-- The members of the field, if it is a bitfield, have bits that fit. -/
def Field.BitMembersFit (f : Field) : Prop :=
  f.kind = .bitfield → ∀ m ∈ f.members, m.body.FitsBits

/-! ### What is read -/

section
variable {ctx : Context} {core : FieldCore} {pos : Position} {props : Props} {e : Element}

theorem yields_readBitLength (hpos : pos.inBitfield = true) (varies : Bool) (limit : Nat) :
    (readBitLength props core pos varies limit).Yields fun n =>
      varies = false ∧ n ≤ limit ∧ (1 ≤ limit → 1 ≤ n) := by
  unfold readBitLength
  refine (Pass.yields_require _ _).bind fun _ hvaries => ?_
  have hvaries : varies = false := by simpa [hpos] using hvaries
  refine Pass.yields_bind fun given => ?_
  cases given with
  | none => exact Pass.yields_pure ⟨hvaries, Nat.le_refl _, id⟩
  | some s =>
    simp only [hpos, Bool.not_true, Bool.false_eq_true, if_false]
    split
    · exact Pass.yields_fail _
    · split_ifs with hbad
      · exact Pass.yields_fail _
      · rw [Bool.or_eq_true, decide_eq_true_eq, beq_iff_eq, not_or] at hbad
        exact Pass.yields_pure ⟨hvaries, by omega, fun _ => by omega⟩

theorem yields_readBitLength_outside (hpos : pos.inBitfield = false) (varies : Bool)
    (limit : Nat) : (readBitLength props core pos varies limit).Yields fun n => n = limit := by
  unfold readBitLength
  refine Pass.yields_bind fun _ => Pass.yields_bind fun given => ?_
  cases given with
  | none => exact Pass.yields_pure rfl
  | some s =>
    simp only [hpos, Bool.not_false, if_true]
    exact Pass.yields_bind fun _ => Pass.yields_pure rfl

theorem fitsBits_readInt (hpos : pos.inBitfield = true) :
    (readInt ctx core pos props e).Yields fun f => (Body.int f).FitsBits := by
  refine (yields_readInt ctx core pos props e).imp fun _ h => ?_
  obtain ⟨hvaries, hle, -⟩ := yields_readBitLength hpos _ _ _ h.bits
  exact ⟨hvaries, hle⟩

theorem fitsBits_readEnum (hpos : pos.inBitfield = true) :
    (readEnum ctx core pos props e).Yields fun f => (Body.enum f).FitsBits :=
  (yields_readEnum ctx core pos props e).imp fun _ h => (yields_readBitLength hpos _ _ _ h.bits).2.1

theorem fitsBits_readSet (hpos : pos.inBitfield = true) :
    (readSet ctx core pos props e).Yields fun f => (Body.set f).FitsBits :=
  (yields_readSet ctx core pos props e).imp fun _ h => (yields_readBitLength hpos _ _ _ h.bits).2.1

theorem fitsBits_readReference (hpos : pos.inBitfield = true) :
    (readReference core pos props).Yields Body.FitsBits := by
  unfold readReference
  refine Pass.yields_bind fun _ => Pass.yields_bind fun _ => Pass.yields_bind fun given => ?_
  cases given with
  | some s =>
    simp only [hpos, if_true]
    split
    · rename_i n hn
      have hbounds := (Option.filter_eq_some_iff.mp hn).2
      rw [Bool.and_eq_true, decide_eq_true_eq, decide_eq_true_eq] at hbounds
      exact Pass.yields_pure ⟨n, rfl, hbounds⟩
    · exact Pass.yields_fail _
  | none =>
    refine (Pass.yields_require _ _).bind fun _ hnot => ?_
    simp [hpos] at hnot

/-- **A member of a bitfield is read with bits that fit.** -/
theorem fitsBits_readBody (nested : NestedReader) (kind : FieldKind)
    (hpos : pos.inBitfield = true) :
    (readBody ctx nested kind core pos props e).Yields Body.FitsBits := by
  have hother (h : kind ∉ [.int, .enum, .set, .ref]) :
      (readBody ctx nested kind core pos props e).Yields Body.FitsBits := by
    have hinner : nested.GivesIn core.window fun _ => True := fun _ _ _ _ _ => trivial
    refine (yields_inner_readBody hinner kind).imp fun body hbody => ?_
    rw [← hbody.1] at h
    cases body <;> simp [Body.kind, Body.FitsBits] at h ⊢
  cases kind with
  | int => exact Pass.yields_map (fitsBits_readInt hpos)
  | enum => exact Pass.yields_map (fitsBits_readEnum hpos)
  | set => exact Pass.yields_map (fitsBits_readSet hpos)
  | ref => exact fitsBits_readReference hpos
  | _ => exact hother (by decide)

theorem yields_members_readBitfield {nested : NestedReader} {P : Field → Prop}
    (h : ∀ e, (nested (.ofBit core.window) e).Yields P) :
    (readBitfield ctx nested core props e).Yields fun body => ∀ m ∈ body.members, P m := by
  unfold readBitfield
  refine (yields_readFields h _ _).bind fun members hmembers => Pass.yields_bind fun _ => ?_
  split
  · exact Pass.yields_bind fun _ => Pass.yields_bind fun _ => Pass.yields_bind fun _ =>
      Pass.yields_bind fun _ => Pass.yields_pure hmembers
  · exact Pass.yields_bind fun _ => Pass.yields_bind fun _ => Pass.yields_bind fun _ =>
      Pass.yields_pure hmembers

/-- All fields that the reader gives have members whose bits fit, at any depth, and what it gives as
members of bitfields fits. -/
def NestedReader.GivesBitMembers (nested : NestedReader) : Prop :=
  ∀ pos e, (nested pos e).Yields fun f =>
    f.Everywhere Field.BitMembersFit ∧ (pos.inBitfield = true → f.body.FitsBits)

theorem yields_bitMembers_readMerged {nested : NestedReader} (h : nested.GivesBitMembers)
    (pos : Position) (e : Element) :
    (readMerged ctx nested pos e).Yields fun f =>
      f.Everywhere Field.BitMembersFit ∧ (pos.inBitfield = true → f.body.FitsBits) := by
  intro f hf
  obtain ⟨kind, -, -, hbody, -⟩ := readMerged_eq_ok.mp hf
  have hgives : nested.GivesIn f.core.window (Field.Everywhere Field.BitMembersFit) :=
    fun pos e _ => (h pos e).imp fun _ hg => hg.1
  obtain ⟨hkind, hinner⟩ := yields_inner_readBody hgives kind _ hbody
  refine ⟨Field.everywhere_iff.mpr ⟨fun hbitfield => ?_, hinner⟩,
    fun hpos => fitsBits_readBody nested kind hpos _ hbody⟩
  obtain rfl : kind = .bitfield := hkind.symm.trans hbitfield
  exact yields_members_readBitfield (fun e => (h (.ofBit f.core.window) e).imp fun _ hm => hm.2 rfl)
    _ hbody

/-- **In a field that is read, the members of bitfields have bits that fit, at any depth.** -/
theorem gives_bitMembers_readField (ctx : Context) (levels : Nat) :
    (readField ctx levels).GivesBitMembers := by
  induction levels with
  | zero => exact fun _ _ => Pass.yields_endless
  | succ levels ih =>
    exact fun pos e => Pass.yields_bind fun merged => yields_bitMembers_readMerged ih pos merged

end

/-! ### Linking -/

namespace Field

theorem fitsBits_mapRefs_iff (g : FieldRef → FieldRef) (f : Field) :
    (f.mapRefs g).body.FitsBits ↔ f.body.FitsBits := by
  obtain ⟨core, body⟩ := f
  cases body with
  | list element count c l el fixed =>
    cases element <;> simp [mapRefs, Field.body, Body.FitsBits]
  | _ => simp [mapRefs, Field.body, Body.FitsBits]

theorem fitsBits_complete_iff (a : Arena) (f : Field) :
    (f.complete a).1.body.FitsBits ↔ f.body.FitsBits := by
  obtain ⟨core, body⟩ := f
  cases body with
  | list element count c l el fixed =>
    cases element <;> simp [complete, Field.body, Body.FitsBits]
  | _ => simp [complete, Field.body, Body.FitsBits]

theorem bitMembersFit_mapRefs_iff (g : FieldRef → FieldRef) (f : Field) :
    (f.mapRefs g).BitMembersFit ↔ f.BitMembersFit := by
  rw [BitMembersFit, BitMembersFit, kind_mapRefs, members_mapRefs, List.forall_mem_map]
  simp only [fitsBits_mapRefs_iff]

theorem bitMembersFit_complete_iff (a : Arena) (f : Field) :
    (f.complete a).1.BitMembersFit ↔ f.BitMembersFit := by
  rw [BitMembersFit, BitMembersFit, kind_complete, members_complete, List.forall_mem_map]
  simp only [fitsBits_complete_iff]

end Field

/-! ### The check -/

theorem checkBitMembers_eq_ok {cx : CheckContext} {ms : List Field}
    (h : (checkBitMembers cx ms).result = .ok true) :
    ∀ m ∈ ms, ∀ t, cx.arena.resolved m = some t →
      t.kind = .int ∨ t.kind = .enum ∨ t.kind = .set := by
  induction ms with
  | nil => simp
  | cons m ms ih =>
    rw [checkBitMembers] at h
    cases ht : cx.arena.resolved m with
    | none =>
      rw [ht] at h
      refine List.forall_mem_cons.mpr ⟨fun t' ht' => ?_, ih (Pass.result_and_eq_ok.mp h).2⟩
      rw [ht] at ht'
      cases ht'
    | some t =>
      rw [ht] at h
      obtain ⟨hm, hms⟩ := Pass.result_and_eq_ok.mp h
      refine List.forall_mem_cons.mpr ⟨fun t' ht' => ?_, ih hms⟩
      obtain rfl : t = t' := Option.some.inj (ht.symm.trans ht')
      have hkind := Pass.result_require_eq_ok.mp (Pass.result_succeeds_eq_ok.mp hm)
      simpa only [Bool.or_eq_true, beq_iff_eq, or_assoc] using hkind

/-- **Members of a bitfield that passes lead to integers, enumerations and sets.** -/
theorem Field.Passes.bitMembers {cx : CheckContext} {siblings : Siblings} {f t m : Field}
    (h : f.Passes cx siblings) (hkind : f.kind = .bitfield) (hm : m ∈ f.members)
    (ht : cx.arena.resolved m = some t) : t.kind = .int ∨ t.kind = .enum ∨ t.kind = .set := by
  obtain ⟨core, body⟩ := f
  cases body with
  | bitfield endian length ms =>
    rw [Passes, check] at h
    obtain ⟨ok, -, h⟩ := Pass.result_bind_eq_ok.mp h
    obtain ⟨fixed, hfixed, h⟩ := Pass.result_bind_eq_ok.mp h
    rw [((Bool.and_eq_true _ _).mp (Pass.result_require_eq_ok.mp h)).2] at hfixed
    exact checkBitMembers_eq_ok hfixed m hm t ht
  | _ => cases hkind

end WireSchema
