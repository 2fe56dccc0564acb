import Mathlib.Data.ENat.Lattice
import Mathlib.Data.List.Fold
import WireSchema.Field.Length

/-! # Lengths cut at the limit

A length *caps* an exact one, which may be infinite, if it is what is left of it at the limit of 64
bits. Sums and products that stop at the limit cap the exact sums and products, whatever was cut
before (`Caps.add`, `Caps.mul`), and so do the least and the greatest of lengths; nothing that is
infinite becomes finite (`caps_top_iff`). -/

namespace WireSchema

/-- The length is what is left of the exact one at the limit. -/
def Caps (n : ℕ) (x : ℕ∞) : Prop := (n : ℕ∞) = min (unbounded : ℕ∞) x

variable {m n : ℕ} {x y : ℕ∞}

theorem unbounded_pos : 0 < unbounded := by decide

/-- Nothing is cut, or all that is beyond the limit is. -/
theorem caps_iff : Caps n x ↔ ((n : ℕ∞) = x ∧ n ≤ unbounded) ∨ (n = unbounded ∧ unbounded ≤ x) := by
  unfold Caps
  constructor
  · intro h
    rcases le_total (unbounded : ℕ∞) x with hx | hx
    · rw [min_eq_left hx, Nat.cast_inj] at h
      exact Or.inr ⟨h, hx⟩
    · rw [min_eq_right hx] at h
      exact Or.inl ⟨h, Nat.cast_le.mp (h ▸ hx)⟩
  · rintro (⟨rfl, h⟩ | ⟨rfl, h⟩)
    · exact (min_eq_right (Nat.cast_le.mpr h)).symm
    · exact (min_eq_left h).symm

/-- **Nothing but the limit caps what has no bound.** -/
theorem caps_top_iff : Caps n ⊤ ↔ n = unbounded := by
  unfold Caps
  rw [min_top_right, Nat.cast_inj]

theorem caps_unbounded : Caps unbounded ⊤ := caps_top_iff.mpr rfl

theorem caps_of_le (h : n ≤ unbounded) : Caps n n := caps_iff.mpr (Or.inl ⟨rfl, h⟩)

theorem caps_zero : Caps 0 0 := caps_of_le (Nat.zero_le _)

theorem caps_min (k : ℕ) : Caps (min unbounded k) k := by
  rcases le_total k unbounded with hk | hk
  · rw [min_eq_right hk]
    exact caps_of_le hk
  · rw [min_eq_left hk]
    exact caps_iff.mpr (Or.inr ⟨rfl, Nat.cast_le.mpr hk⟩)

theorem caps_lengthOfInt (v : Int) : Caps (lengthOfInt v) v.toNat := caps_min _

/-- What is in order is so below the limit. -/
theorem Caps.mono (hm : Caps m x) (hn : Caps n y) (hxy : x ≤ y) : m ≤ n := by
  have hle : (m : ℕ∞) ≤ n := by
    rw [show (m : ℕ∞) = _ from hm, show (n : ℕ∞) = _ from hn]
    exact min_le_min_left _ hxy
  exact Nat.cast_le.mp hle

/-! ### Operations -/

theorem addLengths_comm (m n : ℕ) : addLengths m n = addLengths n m := by
  rw [addLengths, addLengths, Nat.add_comm]

theorem mulLengths_comm (m n : ℕ) : mulLengths m n = mulLengths n m := by
  rw [mulLengths, mulLengths, Nat.mul_comm]

theorem caps_addLengths_unbounded (n : ℕ) (hx : unbounded ≤ x) :
    Caps (addLengths unbounded n) (x + y) := by
  rw [addLengths, min_eq_left (Nat.le_add_right _ _)]
  exact caps_iff.mpr (Or.inr ⟨rfl, hx.trans le_self_add⟩)

/-- **A sum that stops at the limit caps the exact sum.** -/
theorem Caps.add (hm : Caps m x) (hn : Caps n y) : Caps (addLengths m n) (x + y) := by
  rcases caps_iff.mp hm with ⟨rfl, -⟩ | ⟨rfl, hx⟩
  · rcases caps_iff.mp hn with ⟨rfl, -⟩ | ⟨rfl, hy⟩
    · rw [← Nat.cast_add]
      exact caps_min _
    · rw [addLengths_comm, add_comm]
      exact caps_addLengths_unbounded m hy
  · exact caps_addLengths_unbounded n hx

/-- A length is zero if the exact one is, and only then. -/
theorem Caps.zero_or_pos (h : Caps n y) : n = 0 ∧ y = 0 ∨ 0 < n ∧ 1 ≤ y := by
  rcases caps_iff.mp h with ⟨rfl, -⟩ | ⟨rfl, hy⟩
  · rcases Nat.eq_zero_or_pos n with rfl | hpos
    · exact Or.inl ⟨rfl, Nat.cast_zero⟩
    · exact Or.inr ⟨hpos, Nat.one_le_cast.mpr hpos⟩
  · exact Or.inr ⟨unbounded_pos, (Nat.one_le_cast.mpr unbounded_pos).trans hy⟩

/-- What is at the limit stays there unless it is multiplied with nothing. -/
theorem caps_mulLengths_unbounded (hx : unbounded ≤ x) (hn : n = 0 ∧ y = 0 ∨ 0 < n ∧ 1 ≤ y) :
    Caps (mulLengths unbounded n) (x * y) := by
  rcases hn with ⟨rfl, rfl⟩ | ⟨hpos, hy⟩
  · rw [mul_zero]
    exact caps_zero
  · rw [mulLengths, min_eq_left (Nat.le_mul_of_pos_right _ hpos)]
    exact caps_iff.mpr (Or.inr ⟨rfl, hx.trans (le_mul_of_one_le_right' hy)⟩)

/-- **A product that stops at the limit caps the exact product**; nothing times no bound is
nothing. -/
theorem Caps.mul (hm : Caps m x) (hn : Caps n y) : Caps (mulLengths m n) (x * y) := by
  rcases caps_iff.mp hm with ⟨rfl, -⟩ | ⟨rfl, hx⟩
  · rcases caps_iff.mp hn with ⟨rfl, -⟩ | ⟨rfl, hy⟩
    · rw [← Nat.cast_mul]
      exact caps_min _
    · rw [mulLengths_comm, mul_comm]
      exact caps_mulLengths_unbounded hy hm.zero_or_pos
  · exact caps_mulLengths_unbounded hx hn.zero_or_pos

/-- The number of elements need not be cut before. -/
theorem Caps.mul_count (k : ℕ) (hn : Caps n y) : Caps (mulLengths k n) (k * y) := by
  rcases caps_iff.mp hn with ⟨rfl, -⟩ | ⟨rfl, hy⟩
  · rw [← Nat.cast_mul]
    exact caps_min _
  · rw [mulLengths_comm, mul_comm]
    refine caps_mulLengths_unbounded hy ?_
    rcases Nat.eq_zero_or_pos k with rfl | hpos
    · exact Or.inl ⟨rfl, Nat.cast_zero⟩
    · exact Or.inr ⟨hpos, Nat.one_le_cast.mpr hpos⟩

theorem Caps.min (hm : Caps m x) (hn : Caps n y) : Caps (min m n) (min x y) := by
  rcases le_total x y with h | h
  · rwa [min_eq_left h, min_eq_left (hm.mono hn h)]
  · rwa [min_eq_right h, min_eq_right (hn.mono hm h)]

theorem Caps.max (hm : Caps m x) (hn : Caps n y) : Caps (max m n) (max x y) := by
  rcases le_total x y with h | h
  · rwa [max_eq_right h, max_eq_right (hm.mono hn h)]
  · rwa [max_eq_left h, max_eq_left (hn.mono hm h)]

/-! ### Sums of many lengths -/

section sums
variable {ι : Type} {v : ι → ℕ} {v' : ι → ℕ∞} {l : List ι}

theorem addLengths_assoc (k m n : ℕ) :
    addLengths (addLengths k m) n = addLengths k (addLengths m n) := by
  unfold addLengths
  omega

instance : Std.Commutative addLengths := ⟨addLengths_comm⟩

instance : Std.Associative addLengths := ⟨addLengths_assoc⟩

/-- **Stopping at the limit from one length to the next caps the exact sum.** -/
theorem caps_foldr_addLengths (h : ∀ i ∈ l, Caps (v i) (v' i)) :
    Caps ((l.map v).foldr addLengths 0) (l.map v').sum := by
  induction l with
  | nil => exact caps_zero
  | cons i l ih =>
    rw [List.map_cons, List.map_cons, List.foldr_cons, List.sum_cons]
    exact (h i List.mem_cons_self).add (ih fun j hj => h j (List.mem_cons_of_mem _ hj))

theorem caps_foldl_addLengths (h : ∀ i ∈ l, Caps (v i) (v' i)) :
    Caps ((l.map v).foldl addLengths 0) (l.map v').sum := by
  rw [List.foldl_eq_foldr]
  exact caps_foldr_addLengths h

/-- More lengths at the end make no sum less. -/
theorem foldr_addLengths_le_append (ns more : List ℕ) :
    ns.foldr addLengths 0 ≤ (ns ++ more).foldr addLengths 0 := by
  induction ns with
  | nil => exact Nat.zero_le _
  | cons n ns ih =>
    rw [List.cons_append, List.foldr_cons, List.foldr_cons]
    exact min_le_min_left _ (Nat.add_le_add_left ih n)

theorem foldl_addLengths_le_append (ns more : List ℕ) :
    ns.foldl addLengths 0 ≤ (ns ++ more).foldl addLengths 0 := by
  rw [List.foldl_eq_foldr, List.foldl_eq_foldr]
  exact foldr_addLengths_le_append ns more

end sums

end WireSchema
