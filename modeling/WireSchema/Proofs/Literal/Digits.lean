import Mathlib.Tactic.IntervalCases
import WireSchema.Literal.Integer

/-! # Digits

A number is read from its digits (`natural?_toDigits`). -/

namespace WireSchema.Literal

variable {radix n d : Nat}

theorem digitValue?_digitChar (h : d < 16) : digitValue? d.digitChar = some d := by
  interval_cases d <;> rfl

theorem digit?_digitChar (hradix : radix ≤ 16) (h : d < radix) :
    digit? radix d.digitChar = some d := by
  unfold digit?
  rw [digitValue?_digitChar (h.trans_le hradix)]
  simp [h]

theorem digitsFrom?_append (radix acc : Nat) (xs ys : List Char) :
    digitsFrom? radix acc (xs ++ ys) =
      (digitsFrom? radix acc xs).bind fun acc => digitsFrom? radix acc ys := by
  induction xs generalizing acc with
  | nil => rfl
  | cons x xs ih =>
    rw [List.cons_append, digitsFrom?, digitsFrom?, Option.bind_assoc]
    exact congrArg _ (funext fun d => ih _)

/-- The digits of a number give the number. -/
theorem digitsFrom?_toDigits (h : 1 < radix) (hradix : radix ≤ 16) (n : Nat) :
    digitsFrom? radix 0 (Nat.toDigits radix n) = some n := by
  induction n using Nat.strong_induction_on with
  | _ n ih =>
    rw [Nat.toDigits_eq_if h]
    split_ifs with hn
    · rw [digitsFrom?, digit?_digitChar hradix hn, Option.bind_some, digitsFrom?, Nat.zero_mul,
        Nat.zero_add]
    · have hdiv : n / radix < n := Nat.div_lt_self (by omega) h
      have hmod : n % radix < radix := Nat.mod_lt n (by omega)
      rw [digitsFrom?_append, ih _ hdiv, Option.bind_some, digitsFrom?,
        digit?_digitChar hradix hmod, Option.bind_some, digitsFrom?, Nat.mul_comm, Nat.div_add_mod]

theorem natural?_of_head_ne {cs : List Char} (h : ∀ c ∈ cs.head?, c ≠ '+') :
    natural? radix cs = digits? radix cs := by
  unfold natural?
  split
  · exact absurd rfl (h '+' rfl)
  · rfl

/-- **A number is read from its decimal digits.** -/
theorem natural?_toDigits (n : Nat) : natural? 10 (Nat.toDigits 10 n) = some n := by
  have hhead : ∀ c ∈ (Nat.toDigits 10 n).head?, c ≠ '+' := fun c hc heq => by
    have hdigit := Nat.isDigit_of_mem_toDigits (by decide) (by decide) (List.mem_of_head? hc)
    rw [heq] at hdigit
    cases hdigit
  rw [natural?_of_head_ne hhead, digits?, if_neg (by simp [Nat.toDigits_ne_nil])]
  exact digitsFrom?_toDigits (by decide) (by decide) n

end WireSchema.Literal
