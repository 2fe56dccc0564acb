import WireSchema.Text.Blank

/-! # Integer literals

An integer literal is an optional sign and a magnitude, with blanks around it. The magnitude is
hexadecimal after `0x`, binary after `0b`, octal after a leading `0`, and decimal otherwise, and is
less than `2 ^ 127`. A digit run may begin with one more plus sign, so `0x+1F` is 31.
-/

namespace WireSchema.Literal

/-- The value of a digit in any radix up to 16. -/
def digitValue? (c : Char) : Option Nat :=
  if '0' ≤ c ∧ c ≤ '9' then some (c.toNat - 48)
  else if 'a' ≤ c ∧ c ≤ 'f' then some (c.toNat - 87)
  else if 'A' ≤ c ∧ c ≤ 'F' then some (c.toNat - 55)
  else none

/-- The value of a digit of the given radix. -/
def digit? (radix : Nat) (c : Char) : Option Nat := (digitValue? c).filter (· < radix)

/-- The number whose digits follow those of `acc`. -/
def digitsFrom? (radix : Nat) (acc : Nat) : List Char → Option Nat
  | [] => some acc
  | c :: cs => (digit? radix c).bind fun d => digitsFrom? radix (acc * radix + d) cs

/-- The number written by a nonempty run of digits. -/
def digits? (radix : Nat) (cs : List Char) : Option Nat :=
  if cs.isEmpty then none else digitsFrom? radix 0 cs

/-- A run of digits, which may begin with a plus sign. -/
def natural? (radix : Nat) : List Char → Option Nat
  | '+' :: cs => digits? radix cs
  | cs => digits? radix cs

/-- Integers are kept within 128 bits, sign included. -/
def magnitudeLimit : Nat := 1 <<< 127

/-- The digits of a literal without its sign, the radix chosen by how they begin. -/
def radixDigits? : List Char → Option Nat
  | '0' :: 'x' :: cs => natural? 16 cs
  | '0' :: 'X' :: cs => natural? 16 cs
  | '0' :: 'b' :: cs => natural? 2 cs
  | '0' :: 'B' :: cs => natural? 2 cs
  | '0' :: c :: cs => natural? 8 (c :: cs)
  | cs => natural? 10 cs

/-- The part of a literal after its sign; a second sign is refused. -/
def magnitude? (cs : List Char) : Option Nat :=
  match cs with
  | '-' :: _ => none
  | '+' :: _ => none
  | _ => (radixDigits? cs).filter (· < magnitudeLimit)

/-- A literal without blanks around it. -/
def signed? : List Char → Option Int
  | '-' :: cs => (magnitude? cs).map fun n => -(n : Int)
  | '+' :: cs => (magnitude? cs).map fun n => (n : Int)
  | cs => (magnitude? cs).map fun n => (n : Int)

/-- The integer that a literal writes. -/
def int? (s : String) : Option Int := signed? (Text.trim s.toList)

/-- An integer literal whose value is natural and below `limit`. -/
def below? (limit : Nat) (s : String) : Option Nat :=
  (int? s).bind fun v => if 0 ≤ v ∧ v < limit then some v.toNat else none

/-- Versions and ids have 32 bits. -/
def word32Limit : Nat := 1 <<< 32

/-- Lengths and counts have 64 bits. -/
def word64Limit : Nat := 1 <<< 64

/-- The version or id that a literal writes. -/
def word32? (s : String) : Option Nat := below? word32Limit s

/-- The length or count that a literal writes. -/
def word64? (s : String) : Option Nat := below? word64Limit s

theorem magnitude?_lt {cs : List Char} {n : Nat} (h : magnitude? cs = some n) :
    n < magnitudeLimit := by
  unfold magnitude? at h
  split at h
  · simp at h
  · simp at h
  · simp only [Option.filter_eq_some_iff, decide_eq_true_eq] at h
    exact h.2

theorem below?_lt {limit n : Nat} {s : String} (h : below? limit s = some n) : n < limit := by
  simp only [below?, Option.bind_eq_some_iff] at h
  obtain ⟨v, -, h⟩ := h
  split at h
  · simp only [Option.some.injEq] at h
    omega
  · simp at h

end WireSchema.Literal
