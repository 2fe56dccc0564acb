import WireSchema.Literal.Integer

/-! # Octets in hexadecimal

Two hexadecimal digits write an octet; blanks may stand anywhere between digits. The first digit of
a pair may be a plus sign, so `+f` is 15.
-/

namespace WireSchema.Literal

/-- The octet that two characters write. -/
def octet? (a b : Char) : Option UInt8 := (natural? 16 [a, b]).map UInt8.ofNat

/-- The octets of a text of pairs. -/
def pairs? : List Char → Option (List UInt8)
  | [] => some []
  | [_] => none
  | a :: b :: cs => (octet? a b).bind fun o => (pairs? cs).map (o :: ·)

/-- The octets that a literal writes. -/
def octets? (s : String) : Option (List UInt8) :=
  pairs? (s.toList.filter fun c => !Text.isBlank c)

end WireSchema.Literal
