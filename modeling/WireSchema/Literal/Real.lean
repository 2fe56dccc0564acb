import WireSchema.Decimal.Binary64
import WireSchema.Literal.Flag
import WireSchema.Literal.Integer

/-! # Real literals

A real literal is one of the words `nan` and `inf`, an integer literal in any radix, or a decimal
with an optional fraction and exponent. An integer literal is read as such first, so `010` is eight.
-/

namespace WireSchema.Literal

/-- A decimal digit. -/
def isDecimal (c : Char) : Bool := c.isDigit

/-- The number of a run of decimal digits, zero for none. -/
def decimalRun (cs : List Char) : Nat := (digitsFrom? 10 0 cs).getD 0

/-- The exponent after the mantissa: none at all is zero. -/
def exponent? : List Char → Option Int
  | [] => some 0
  | c :: cs =>
    if c == 'e' || c == 'E' then
      match cs with
      | '-' :: ds => (digits? 10 ds).map fun n => -(n : Int)
      | '+' :: ds => (digits? 10 ds).map fun n => (n : Int)
      | ds => (digits? 10 ds).map fun n => (n : Int)
    else none

/-- A decimal without its sign: digits on at least one side of the point. -/
def decimal? (negative : Bool) (cs : List Char) : Option Float :=
  let whole := cs.takeWhile isDecimal
  let rest := cs.dropWhile isDecimal
  let hasPoint := rest.head? == some '.'
  let fraction := if hasPoint then rest.tail.takeWhile isDecimal else []
  let rest' := if hasPoint then rest.tail.dropWhile isDecimal else rest
  if whole.isEmpty && fraction.isEmpty then none
  else (exponent? rest').map fun e =>
    Decimal.ofDecimal negative (decimalRun (whole ++ fraction)) (e - fraction.length)

/-- A word for a number that has no digits, or a decimal, without its sign. -/
def unsignedReal? (negative : Bool) (cs : List Char) : Option Float :=
  match String.ofList (lower cs) with
  | "nan" => some Decimal.notANumber
  | "inf" => some (if negative then Decimal.negInfinity else Decimal.infinity)
  | "infinity" => some (if negative then Decimal.negInfinity else Decimal.infinity)
  | _ => decimal? negative cs

/-- A word or a decimal with an optional sign. -/
def signedReal? : List Char → Option Float
  | '-' :: cs => unsignedReal? true cs
  | '+' :: cs => unsignedReal? false cs
  | cs => unsignedReal? false cs

/-- The number that a literal writes. -/
def real? (s : String) : Option Float :=
  let cs := Text.trim s.toList
  match signed? cs with
  | some v => some (Decimal.ofInt v)
  | none => signedReal? cs

end WireSchema.Literal
