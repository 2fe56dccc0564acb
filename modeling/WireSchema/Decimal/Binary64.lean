/-! # Rounding a ratio to a binary64 number

`nearest num den` is the number of the binary64 format closest to `num / den`; of two that are
equally close it is the one with an even significand. All is done in `Nat`: the ratio is scaled so
that its quotient has 53 bits, or fewer below the normal range, and the remainder decides the last
one.
-/

namespace WireSchema.Decimal

/-- The bits of positive infinity. -/
def infinityBits : Nat := 0x7FF0000000000000

/-- The bit that a negative number has set. -/
def signBit : Nat := 1 <<< 63

/-- The first significand of 53 bits; the bits below it are written out. -/
def hiddenBit : Nat := 1 <<< 52

/-- The quotient and the doubled remainder of `num / (den * 2 ^ e)`, and the scaled denominator. -/
structure Scaled where
  quotient : Nat
  remainder : Nat
  denominator : Nat

/-- `num / (den * 2 ^ e)` as quotient and remainder. -/
def scaled (num den : Nat) (e : Int) : Scaled :=
  let n := if e < 0 then num <<< (-e).toNat else num
  let d := if e < 0 then den else den <<< e.toNat
  ⟨n / d, n % d, d⟩

/-- The quotient to the nearest whole number, a half to the even one. -/
def Scaled.round (s : Scaled) : Nat :=
  if 2 * s.remainder > s.denominator then s.quotient + 1
  else if 2 * s.remainder = s.denominator then s.quotient + s.quotient % 2
  else s.quotient

/-- The exponent at which the quotient of `num / (den * 2 ^ e)` has 53 bits, but at least the
exponent of the smallest number. -/
def exponentOf (num den : Nat) : Int :=
  let e := max (-1074) ((num.log2 : Int) - den.log2 - 53)
  if (scaled num den e).quotient < 2 * hiddenBit then e else e + 1

/-- The bits of the binary64 number closest to `num / den`. -/
def nearestBits (num den : Nat) : Nat :=
  if num = 0 then 0
  else
    let e := exponentOf num den
    min infinityBits ((e + 1074).toNat * hiddenBit + (scaled num den e).round)

/-- The binary64 number closest to `num / den`, with the given sign. -/
def nearest (negative : Bool) (num den : Nat) : Float :=
  Float.ofBits (UInt64.ofNat ((if negative then signBit else 0) + nearestBits num den))

/-- The binary64 number closest to a whole number. -/
def ofInt (v : Int) : Float := nearest (v < 0) v.natAbs 1

/-- Positive infinity. -/
def infinity : Float := Float.ofBits (UInt64.ofNat infinityBits)

/-- Negative infinity. -/
def negInfinity : Float := Float.ofBits (UInt64.ofNat (signBit + infinityBits))

/-- The number that is not a number. -/
def notANumber : Float := Float.ofBits 0x7FF8000000000000

/-- The binary64 number closest to `m * 10 ^ e`. Where the ratio is far outside the range of the
format, below `10 ^ (-400)` or from `10 ^ 401` on, the answer is known without the power. -/
def ofDecimal (negative : Bool) (m : Nat) (e : Int) : Float :=
  if m = 0 ∨ e + (m.log2 + 1) / 3 + 1 < -400 then nearest negative 0 1
  else if 400 < e then nearest negative (1 <<< 1024) 1
  else if 0 ≤ e then nearest negative (m * Nat.pow 10 e.toNat) 1
  else nearest negative m (Nat.pow 10 (-e).toNat)

end WireSchema.Decimal
