import WireSchema.Decimal.Binary64

/-! # The shortest decimal of a binary64 number

A finite number is `m * 2 ^ q`. The reals that round to it form an interval around it, whose ends
belong to it when `m` is even. For one digit, two digits and so on, the two decimals next to the
number are tested; the first count of digits that hits the interval wins, of two hits the nearer
one, and of two that are equally near the greater one. The digits are written without an exponent.
-/

namespace WireSchema.Decimal

/-- The significand and exponent of a finite number, sign aside. -/
structure Parts where
  significand : Nat
  exponent : Int

/-- The parts that the bits of a finite number encode. -/
def partsOfBits (bits : Nat) : Parts :=
  let field : Nat := bits / hiddenBit % 2048
  let low : Nat := bits % hiddenBit
  if field = 0 then ⟨low, -1074⟩ else ⟨low + hiddenBit, (field : Int) - 1075⟩

/-- A number and its interval as whole multiples of one unit, `10 ^ place` being `scale` units. -/
structure Grid where
  value : Nat
  below : Nat
  above : Nat
  closed : Bool
  scale : Nat

/-- The number `p` with the distances to the ends of its interval, in units of a quarter of its last
binary place, against the decimal place `10 ^ place`. -/
def Parts.grid (p : Parts) (place : Int) : Grid :=
  let two := if p.exponent < 0 then 1 else 1 <<< p.exponent.toNat
  let ten := if place < 0 then Nat.pow 10 (-place).toNat else 1
  let unit := two * ten
  let narrow := p.significand = hiddenBit ∧ p.exponent ≠ -1074
  { value := 4 * p.significand * unit
    below := if narrow then unit else 2 * unit
    above := 2 * unit
    closed := p.significand % 2 = 0
    scale :=
      4 * (if p.exponent < 0 then 1 <<< (-p.exponent).toNat else 1) *
        (if place < 0 then 1 else Nat.pow 10 place.toNat) }

/-- The decimal `d * 10 ^ place` rounds to the number. -/
def Grid.hits (g : Grid) (d : Nat) : Bool :=
  let x := d * g.scale
  if x ≤ g.value then
    if g.closed then g.value ≤ x + g.below else g.value < x + g.below
  else if g.closed then x ≤ g.value + g.above else x < g.value + g.above

/-- The better of the two decimals next to the number, if one of them rounds to it. -/
def Grid.best (g : Grid) : Option Nat :=
  let d := g.value / g.scale
  let r := g.value % g.scale
  let nearer := if 2 * r < g.scale then d else d + 1
  let farther := if 2 * r < g.scale then d + 1 else d
  if g.hits nearer then some nearer else if g.hits farther then some farther else none

/-- The number of decimal digits of a positive whole number. -/
def digitCount (n : Nat) : Nat := (Nat.toDigits 10 n).length

/-- The place of the leading digit: the number lies between `10 ^ place` and `10 ^ (place + 1)`. -/
def Parts.leadingPlace (p : Parts) : Int :=
  if 0 ≤ p.exponent then (digitCount (p.significand <<< p.exponent.toNat) : Int) - 1
  else
    let shift : Nat := (-p.exponent).toNat
    let whole := p.significand * Nat.pow 10 shift / 1 <<< shift
    (digitCount whole : Int) - 1 - shift

/-- Digits and place of the shortest decimal; `count` more digits are tried from `place` down. -/
def Parts.shortestFrom (p : Parts) : Nat → Int → Nat × Int
  | 0, place => ((p.grid place).value / (p.grid place).scale, place)
  | count + 1, place =>
    match (p.grid place).best with
    | some d => (d, place)
    | none => shortestFrom p count (place - 1)

/-- The digits of the shortest decimal of a positive number and the place of the last of them. -/
def Parts.shortest (p : Parts) : Nat × Int := p.shortestFrom 17 p.leadingPlace

/-- The digits `d` with the last one at `place`, written out without an exponent. -/
def positional (d : Nat) (place : Int) : String :=
  let ds := Nat.toDigits 10 d
  if 0 ≤ place then String.ofList (ds ++ List.replicate place.toNat '0')
  else
    let n := (-place).toNat
    let padded := List.replicate (n + 1 - ds.length) '0' ++ ds
    let cutAt := padded.length - n
    let fraction := (padded.drop cutAt).reverse.dropWhile (· == '0') |>.reverse
    let whole := padded.take cutAt
    String.ofList (if fraction.isEmpty then whole else whole ++ '.' :: fraction)

/-- The text of a number that is not negative, from its bits. -/
def textOfMagnitude (bits : Nat) : String :=
  if bits = 0 then "0"
  else if infinityBits ≤ bits then "inf"
  else
    let r := (partsOfBits bits).shortest
    positional r.1 r.2

/-- The text of a number: its shortest decimal, `NaN`, or `inf`, after a minus sign if it has
one. -/
def text (x : Float) : String :=
  let bits := x.toBits.toNat
  let magnitude := bits % signBit
  if infinityBits < magnitude then "NaN"
  else if bits < signBit then textOfMagnitude magnitude
  else "-" ++ textOfMagnitude magnitude

end WireSchema.Decimal
