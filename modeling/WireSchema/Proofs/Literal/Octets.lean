import WireSchema.Literal.Octets
import WireSchema.Proofs.Literal.Numerals

/-! # Octets as they are written

A text of octets is read pair by pair, once the blanks are taken out of it
(`octets?_eq_some_iff`). -/

namespace WireSchema.Literal

variable {cs : List Char} {os : List UInt8}

/-- The characters of a text that are not blank. -/
def inked (s : String) : List Char := s.toList.filter fun c => !Text.isBlank c

/-- The octet that a pair of characters writes: two digits, of which the reader takes a plus sign for
the first one. -/
def IsOctet (p : Char × Char) (o : UInt8) : Prop :=
  ∃ lo, IsDigit 16 p.2 lo ∧
    (p.1 = '+' ∧ o = .ofNat lo ∨ ∃ hi, IsDigit 16 p.1 hi ∧ o = .ofNat (16 * hi + lo))

theorem numeral_singleton_iff {radix n : Nat} {a : Char} :
    Numeral radix [a] n ↔ IsDigit radix a n := by
  unfold Numeral
  simp only [ne_eq, reduceCtorEq, not_false_eq_true, true_and, List.forall₂_cons_left_iff,
    List.forall₂_nil_left_iff]
  constructor
  · rintro ⟨-, ⟨d, -, hd, rfl, rfl⟩, rfl⟩
    simpa using hd
  · exact fun h => ⟨[n], ⟨n, [], h, rfl, rfl⟩, by simp⟩

theorem numeral_pair_iff {radix n : Nat} {a b : Char} :
    Numeral radix [a, b] n ↔
      ∃ hi lo, IsDigit radix a hi ∧ IsDigit radix b lo ∧ n = radix * hi + lo := by
  unfold Numeral
  simp only [ne_eq, reduceCtorEq, not_false_eq_true, true_and, List.forall₂_cons_left_iff,
    List.forall₂_nil_left_iff]
  have hvalue (hi lo : Nat) : Nat.ofDigits radix [hi, lo].reverse = radix * hi + lo := by
    simp [Nat.ofDigits_cons, Nat.add_comm]
  constructor
  · rintro ⟨-, ⟨hi, -, hhi, ⟨lo, -, hlo, rfl, rfl⟩, rfl⟩, rfl⟩
    exact ⟨hi, lo, hhi, hlo, hvalue hi lo⟩
  · rintro ⟨hi, lo, hhi, hlo, rfl⟩
    exact ⟨[hi, lo], ⟨hi, [lo], hhi, ⟨lo, [], hlo, rfl, rfl⟩, rfl⟩, (hvalue hi lo).symm⟩

theorem octet?_eq_some_iff {a b : Char} {o : UInt8} :
    octet? a b = some o ↔ IsOctet (a, b) o := by
  unfold octet? IsOctet
  simp only [Option.map_eq_some_iff, natural?_eq_some_iff (Nat.le_refl 16)]
  constructor
  · rintro ⟨n, ⟨plus, ds, hab, rfl | rfl, hds⟩, rfl⟩
    · obtain rfl : [a, b] = ds := hab
      obtain ⟨hi, lo, hhi, hlo, rfl⟩ := numeral_pair_iff.mp hds
      exact ⟨lo, hlo, Or.inr ⟨hi, hhi, rfl⟩⟩
    · obtain ⟨rfl, rfl⟩ := List.cons_eq_cons.mp hab
      exact ⟨n, numeral_singleton_iff.mp hds, Or.inl ⟨rfl, rfl⟩⟩
  · rintro ⟨lo, hlo, ⟨rfl, rfl⟩ | ⟨hi, hhi, rfl⟩⟩
    · exact ⟨lo, ⟨['+'], [b], rfl, Or.inr rfl, numeral_singleton_iff.mpr hlo⟩, rfl⟩
    · exact ⟨_, ⟨[], [a, b], rfl, Or.inl rfl, numeral_pair_iff.mpr ⟨hi, lo, hhi, hlo, rfl⟩⟩, rfl⟩

theorem pairs?_eq_some_iff : pairs? cs = some os ↔
    ∃ ps : List (Char × Char), cs = ps.flatMap (fun p => [p.1, p.2]) ∧
      List.Forall₂ IsOctet ps os := by
  induction cs using pairs?.induct generalizing os with
  | case1 =>
    rw [pairs?, Option.some.injEq]
    constructor
    · rintro rfl
      exact ⟨[], rfl, .nil⟩
    · rintro ⟨ps, hps, hos⟩
      cases hos with
      | nil => rfl
      | cons => cases hps
  | case2 c =>
    rw [pairs?]
    refine iff_of_false (by simp) ?_
    rintro ⟨ps, hps, -⟩
    cases ps <;> simp at hps
  | case3 a b cs ih =>
    rw [pairs?, Option.bind_eq_some_iff]
    simp only [octet?_eq_some_iff, Option.map_eq_some_iff, ih]
    constructor
    · rintro ⟨o, ho, os, ⟨ps, rfl, hos⟩, rfl⟩
      exact ⟨(a, b) :: ps, rfl, .cons ho hos⟩
    · rintro ⟨ps, hps, hos⟩
      cases hos with
      | nil => cases hps
      | @cons p o ps os ho hos =>
        obtain ⟨x, y⟩ := p
        cases hps
        exact ⟨o, ho, os, ⟨ps, rfl, hos⟩, rfl⟩

/-- **Octets are read pair by pair.** -/
theorem octets?_eq_some_iff {s : String} : octets? s = some os ↔
    ∃ ps : List (Char × Char), inked s = ps.flatMap (fun p => [p.1, p.2]) ∧
      List.Forall₂ IsOctet ps os :=
  pairs?_eq_some_iff

end WireSchema.Literal
