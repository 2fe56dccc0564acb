import Mathlib.Algebra.Ring.Int.Defs
import WireSchema.Field.Value

/-! # Intervals of words

The range of so many bits has exactly the numbers that words of these bits mean
(`contains_bitsRange_iff`). Ranges are computed with numbers of 128 bits: each step of the
computation has a result that they hold, up to the offset of an integer, and the range that the wire
has for an integer is there if and only if the offset keeps its bounds within 128 bits
(`wordBitsRange?_eq`, `wordOffsetRange?_eq`). -/

namespace WireSchema

variable {signed : Bool} {bits : Nat} {v : Int}

/-! ### Words -/

/-- A word of so many bits means the number; a signed one is in two's complement. -/
def Representable (signed : Bool) (bits : Nat) (v : Int) : Prop :=
  ∃ w : BitVec bits, (if signed then w.toInt else (w.toNat : Int)) = v

theorem representable_zero : Representable signed 0 v ↔ v = 0 := by
  constructor
  · rintro ⟨w, rfl⟩
    rw [BitVec.eq_nil w]
    cases signed <;> rfl
  · rintro rfl
    exact ⟨0, by cases signed <;> rfl⟩

theorem representable_signed (h : 0 < bits) :
    Representable true bits v ↔ -2 ^ (bits - 1) ≤ v ∧ v < 2 ^ (bits - 1) := by
  constructor
  · rintro ⟨w, rfl⟩
    exact ⟨w.le_toInt, w.toInt_lt⟩
  · rintro ⟨hlo, hhi⟩
    exact ⟨BitVec.ofInt bits v, BitVec.toInt_ofInt_eq_self h hlo hhi⟩

theorem representable_unsigned : Representable false bits v ↔ 0 ≤ v ∧ v < 2 ^ bits := by
  constructor
  · rintro ⟨w, rfl⟩
    have hlt : ((w.toNat : Nat) : Int) < ((2 ^ bits : Nat) : Int) := Int.ofNat_lt.mpr w.isLt
    rw [Int.natCast_pow] at hlt
    exact ⟨Int.natCast_nonneg _, hlt⟩
  · rintro ⟨hlo, hhi⟩
    obtain ⟨n, rfl⟩ := Int.eq_ofNat_of_zero_le hlo
    have hlt : n < 2 ^ bits := by exact_mod_cast hhi
    refine ⟨BitVec.ofNat bits n, ?_⟩
    simp [Nat.mod_eq_of_lt hlt]

theorem Interval.contains_iff {i : Interval} : i.contains v = true ↔ i.lo ≤ v ∧ v ≤ i.hi := by
  simp [contains]

/-- **The range of so many bits has the numbers that words of these bits mean.** -/
theorem contains_bitsRange_iff (h : bits ≤ 64) :
    (bitsRange signed bits).contains v = true ↔ Representable signed bits v := by
  rw [Interval.contains_iff]
  by_cases hzero : bits = 0
  · subst hzero
    rw [representable_zero]
    simp only [bitsRange, if_true]
    omega
  · have hpow : (((1 : Nat) <<< (bits - 1) : Nat) : Int) = 2 ^ (bits - 1) := by
      rw [Nat.shiftLeft_eq, Nat.one_mul, Int.natCast_pow]
      rfl
    have hpow' : (((1 : Nat) <<< bits : Nat) : Int) = 2 ^ bits := by
      rw [Nat.shiftLeft_eq, Nat.one_mul, Int.natCast_pow]
      rfl
    cases signed with
    | true =>
      rw [representable_signed (Nat.pos_of_ne_zero hzero)]
      simp only [bitsRange, if_neg hzero, if_true, Nat.min_eq_left h, hpow]
      omega
    | false =>
      rw [representable_unsigned]
      simp only [bitsRange, if_neg hzero, Bool.false_eq_true, if_false, Nat.min_eq_left h, hpow']
      omega

/-! ### Computing with 128 bits -/

/-- The number, if 128 bits hold it. -/
def word? (v : Int) : Option Int := if wordInterval.contains v then some v else none

/-- The range of so many bits, each step computed with 128 bits. -/
def wordBitsRange? (signed : Bool) (bits : Nat) : Option Interval := do
  if bits = 0 then return ⟨0, 0⟩
  if signed then
    let half ← word? ((1 <<< (min bits 64 - 1) : Nat) : Int)
    return ⟨← word? (-half), ← word? (half - 1)⟩
  else
    let limit ← word? ((1 <<< min bits 64 : Nat) : Int)
    return ⟨0, ← word? (limit - 1)⟩

/-- The values that the wire can carry after the offset is added, each step computed with 128
bits. -/
def IntField.wordOffsetRange? (f : IntField) : Option Interval := do
  let r ← wordBitsRange? f.type.isSigned f.wireBits
  return ⟨← word? (r.lo - f.serOffset), ← word? (r.hi - f.serOffset)⟩

theorem word?_eq_some (hlo : -2 ^ 64 ≤ v) (hhi : v ≤ 2 ^ 64) : word? v = some v := by
  have hlimit : (Literal.magnitudeLimit : Int) = 2 ^ 127 := by decide
  refine if_pos (Interval.contains_iff.mpr ?_)
  simp only [wordInterval, hlimit]
  omega

theorem shiftLeft_bounds {n : Nat} (h : n ≤ 64) :
    (0 : Int) ≤ ((1 <<< n : Nat) : Int) ∧ ((1 <<< n : Nat) : Int) ≤ 2 ^ 64 := by
  have hle : (1 : Nat) <<< n ≤ 2 ^ 64 := by
    rw [Nat.shiftLeft_eq, Nat.one_mul]
    exact Nat.pow_le_pow_right (by decide) h
  exact ⟨Int.natCast_nonneg _, by exact_mod_cast hle⟩

/-- **No step of computing the range of so many bits leaves 128 bits.** -/
theorem wordBitsRange?_eq (signed : Bool) (bits : Nat) :
    wordBitsRange? signed bits = some (bitsRange signed bits) := by
  unfold wordBitsRange? bitsRange
  by_cases hzero : bits = 0
  · simp [hzero]
  · cases signed with
    | true =>
      obtain ⟨hpos, hle⟩ := shiftLeft_bounds (n := min bits 64 - 1) (by omega)
      simp only [if_neg hzero, if_true]
      generalize ((1 <<< (min bits 64 - 1) : Nat) : Int) = half at hpos hle ⊢
      have hhalf : word? half = some half := word?_eq_some (by omega) hle
      have hlo : word? (-half) = some (-half) := word?_eq_some (by omega) (by omega)
      have hhi : word? (half - 1) = some (half - 1) := word?_eq_some (by omega) (by omega)
      simp [hhalf, hlo, hhi]
    | false =>
      obtain ⟨hpos, hle⟩ := shiftLeft_bounds (n := min bits 64) (by omega)
      simp only [if_neg hzero, Bool.false_eq_true, if_false]
      generalize ((1 <<< min bits 64 : Nat) : Int) = limit at hpos hle ⊢
      have hlimit : word? limit = some limit := word?_eq_some (by omega) hle
      have hhi : word? (limit - 1) = some (limit - 1) := word?_eq_some (by omega) (by omega)
      simp [hlimit, hhi]

/-- **Only an offset that is too large leaves 128 bits, and then there is no range.** -/
theorem IntField.wordOffsetRange?_eq (f : IntField) : f.wordOffsetRange? = f.offsetRange? := by
  unfold wordOffsetRange? offsetRange? word?
  rw [wordBitsRange?_eq]
  dsimp only [Option.bind_eq_bind, Option.bind_some]
  by_cases hlo :
      wordInterval.contains ((bitsRange f.type.isSigned f.wireBits).lo - f.serOffset) = true
  · by_cases hhi :
        wordInterval.contains ((bitsRange f.type.isSigned f.wireBits).hi - f.serOffset) = true
    · simp [hlo, hhi]
    · simp [hlo, hhi]
  · simp [hlo]

theorem Literal.contains_of_int? {s : String} (h : int? s = some v) :
    wordInterval.contains v = true := by
  have hmagnitude {cs : List Char} {n : Int}
      (h : (magnitude? cs).bind (fun m => some (m : Int)) = some n) :
      0 ≤ n ∧ n < magnitudeLimit := by
    obtain ⟨m, hm, hn⟩ := Option.bind_eq_some_iff.mp h
    have hlt := magnitude?_lt hm
    obtain rfl := Option.some.inj hn
    omega
  rw [Interval.contains_iff]
  simp only [wordInterval]
  unfold int? signed? at h
  split at h
  · obtain ⟨n, hn, rfl⟩ := Option.map_eq_some_iff.mp h
    have := hmagnitude hn
    omega
  · obtain ⟨n, hn, rfl⟩ := Option.map_eq_some_iff.mp h
    have := hmagnitude hn
    omega
  · obtain ⟨n, hn, rfl⟩ := Option.map_eq_some_iff.mp h
    have := hmagnitude hn
    omega

end WireSchema
