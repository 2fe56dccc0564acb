import WireSchema.Literal.Integer
import WireSchema.Text.Split

/-! # Ranges and ratios

A range is two bounds with a comma between them, in square brackets or without; the bounds stay
texts, because the name of a special value may stand for one. A ratio is `num/den` or a whole
number.
-/

namespace WireSchema.Literal

/-- The text between square brackets, or all of it where it has not both of them. -/
def unbracket (cs : List Char) : List Char :=
  match cs with
  | '[' :: inner =>
    match inner.reverse with
    | ']' :: r => r.reverse
    | _ => cs
  | _ => cs

/-- The texts of the two bounds. -/
def range? (s : String) : Option (String × String) :=
  (Text.cut ',' (unbracket (Text.trim s.toList))).bind fun p =>
    let lo := Text.trim p.1
    let hi := Text.trim p.2
    if lo.isEmpty || hi.isEmpty then none else some (String.ofList lo, String.ofList hi)

/-- A numerator and a denominator other than zero. -/
def ratio? (s : String) : Option (Int × Int) :=
  let parts : Option (Int × Int) :=
    match Text.cutString '/' s with
    | some (n, d) => (int? n).bind fun num => (int? d).map fun den => (num, den)
    | none => (int? s).map fun num => (num, 1)
  parts.filter fun p => p.2 != 0

end WireSchema.Literal
