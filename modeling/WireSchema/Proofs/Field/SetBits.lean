import WireSchema.Proofs.Field.BitMembers
import WireSchema.Proofs.Field.Sized
import WireSchema.Proofs.Text.Distinct

/-! # Bits of a set

A set has between one and eight bytes, which its type can hold, at least one bit, and no more bits
than bytes. The bits that are declared have names of their own and indices below the number of bits.
The indices that none of them uses are reserved, as are those that only reserved bits use, also
where several bits share an index (`SetField.Checked.laidOut`). -/

namespace WireSchema

open Markup

namespace SetField

variable {f : SetField} {b : SetBit} {n : String} {i : Nat}

theorem mem_byName : b ∈ f.byName ↔ b ∈ f.bits := (List.mergeSort_perm f.bits _).mem_iff

theorem sortedBy_byName (h : (f.bits.map SetBit.name).Nodup) : SortedBy SetBit.name f.byName :=
  List.pairwise_map.mp (pairwise_lt_mergeSort (fun _ _ => decide_eq_true_iff) h)

theorem bit?_eq_some_iff (h : (f.bits.map SetBit.name).Nodup) :
    f.bit? n = some b ↔ b ∈ f.byName ∧ b.name = n := by
  rw [mem_byName]
  exact findNamed?_eq_some_iff_of_nodup h

theorem pairwise_reservedIndices (f : SetField) : f.reservedIndices.Pairwise (· < ·) :=
  List.pairwise_lt_range.filter _

theorem mem_reservedIndices : i ∈ f.reservedIndices ↔
    i < f.bitLength ∧ ∀ b ∈ f.bits, b.reserved = false → b.idx ≠ i := by
  rw [reservedIndices, List.mem_filter, List.mem_range]
  refine and_congr_right fun _ => ?_
  simp only [Bool.not_eq_true', List.any_eq_false, Bool.and_eq_true, beq_iff_eq, not_and, ne_eq]
  exact forall₂_congr fun b _ => ⟨fun h hb hi => h hi hb, fun h hi hb => h hb hi⟩

/-- The set has storage for its bits, and its bits are those that are declared, each by its name,
its index and whether it is reserved. -/
structure LaidOut (f : SetField) (declared : List (String × Nat × Bool)) : Prop where
  /-- The set has between one and eight bytes, at least one bit, and no more bits than bytes. -/
  length : 1 ≤ f.length ∧ f.length ≤ 8
  bitLength : 1 ≤ f.bitLength ∧ f.bitLength ≤ 8 * f.length
  /-- The bytes fit into the type, which is unsigned and does not vary in length. -/
  storage : f.type.isSigned = false ∧ f.type.isVariable = false ∧ f.length ≤ f.type.maxLength
  /-- The bits are those that are declared; they are found by their names, which are different. -/
  bits : f.bits.map (fun b => (b.name, b.idx, b.reserved)) = declared
  names : (declared.map (·.1)).Nodup
  byName : SortedBy SetBit.name f.byName
  bit? : ∀ n b, f.bit? n = some b ↔ b ∈ f.byName ∧ b.name = n
  /-- The indices lie below the number of bits, and are different unless they may be shared. -/
  below : ∀ d ∈ declared, d.2.1 < f.bitLength
  unshared : f.nonUniqueAllowed = false → (declared.map (·.2.1)).Nodup
  /-- The reserved indices are those below the number of bits that no bit has which is not
  reserved, in their order. -/
  ordered : f.reservedIndices.Pairwise (· < ·)
  reserved : ∀ i, i ∈ f.reservedIndices ↔
    i < f.bitLength ∧ ∀ d ∈ declared, d.2.2 = false → d.2.1 ≠ i

section
variable {ctx : Context} {core : FieldCore} {pos : Position} {props : Props}

/-- Whether it is in a bitfield or not, a set has no more bits than its bytes. -/
theorem ReadFrom.bitLength_bounds (h : ReadFrom ctx core pos props f) :
    1 ≤ f.bitLength ∧ f.bitLength ≤ f.length * 8 := by
  obtain ⟨_, _, -, hlength⟩ := h.length
  have hpositive := (bounds_of_readSetType hlength).1
  cases hpos : pos.inBitfield with
  | true =>
    obtain ⟨-, hle, hone⟩ := yields_readBitLength hpos _ _ _ h.bits
    exact ⟨hone (by omega), hle⟩
  | false =>
    have heq := yields_readBitLength_outside hpos _ _ _ h.bits
    omega

/-- **A set that is read is laid out by its declared bits.** -/
theorem Checked.laidOut {declared : List Element}
    (h : Checked ctx core pos props declared f) : f.LaidOut (declared.filterMap declaredBit?) := by
  obtain ⟨_, _, -, hlength⟩ := h.length
  obtain ⟨hpositive, hfits⟩ : 1 ≤ f.length ∧ f.length ≤ f.type.maxLength :=
    bounds_of_readSetType hlength
  have hmax := IntType.maxLength_le_of_fixed h.fixed
  have hbits := h.toReadFrom.bitLength_bounds
  have hdeclared := h.lists.filterMap_eq
  rw [hdeclared]
  refine ⟨⟨hpositive, by omega⟩, ⟨hbits.1, by omega⟩, ⟨h.unsigned, h.fixed, hfits⟩, rfl, ?_,
    sortedBy_byName h.lists.names, fun n b => bit?_eq_some_iff h.lists.names, ?_, ?_,
    f.pairwise_reservedIndices, fun i => ?_⟩
  · rw [List.map_map]
    exact h.lists.names
  · exact List.forall_mem_map.mpr h.below
  · rw [List.map_map]
    exact h.lists.keys
  · rw [mem_reservedIndices, List.forall_mem_map]

end

end SetField

end WireSchema
