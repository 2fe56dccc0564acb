import WireSchema.Field.Basic

/-! # Values of a field

What values an integer or real field accepts, which integers its form on the wire can carry, and the
names that enumerations and sets give to values and bits.
-/

namespace WireSchema

/-- The least and the greatest integer of 128 bits; what is outside of them cannot be computed
with. -/
def wordInterval : Interval :=
  ⟨-(Literal.magnitudeLimit : Int), (Literal.magnitudeLimit : Int) - 1⟩

namespace IntField

/-- The values that the type has in memory. -/
def typeRange (f : IntField) : Interval := f.type.range

/-- The bits of the value on the wire. -/
def wireBits (f : IntField) : Nat :=
  if f.bitLength < f.length * 8 then f.bitLength else f.type.valueBits f.length

/-- The values that the wire can carry after the offset is added, unless the offset is too large. -/
def offsetRange? (f : IntField) : Option Interval :=
  let r := bitsRange f.type.isSigned f.wireBits
  let lo := r.lo - f.serOffset
  let hi := r.hi - f.serOffset
  if wordInterval.contains lo && wordInterval.contains hi then some ⟨lo, hi⟩ else none

/-- The values that the wire can carry. -/
def wireRange (f : IntField) : Interval := f.offsetRange?.getD wordInterval

/-- The special value with the name. -/
def special? (f : IntField) (name : String) : Option (Special Int) :=
  f.specials.find? (·.name == name)

/-- The value that a literal or the name of a special value means. -/
def valueOf? (f : IntField) (s : String) : Option Int :=
  (Literal.int? s).or ((f.special? s).map (·.value))

/-- The value lies in a valid range; without any range every value does. -/
def accepts (f : IntField) (v : Int) : Bool :=
  f.validRanges.isEmpty || f.validRanges.any (·.contains v)

/-- The least length on the wire. -/
def minLength (f : IntField) : Nat := if f.type.isVariable then 1 else f.length

end IntField

namespace FloatField

/-- The special value with the name. -/
def special? (f : FloatField) (name : String) : Option (Special Float) :=
  f.specials.find? (·.name == name)

/-- The value lies in a valid range; what is not a number, only where that is the range. Without any
range every value does. -/
def accepts (f : FloatField) (v : Float) : Bool :=
  f.validRanges.isEmpty || f.validRanges.any fun r =>
    if v.isNaN then r.1.isNaN else r.1 ≤ v && v ≤ r.2

end FloatField

namespace EnumField

/-- The values that the type has in memory. -/
def typeRange (f : EnumField) : Interval := f.type.range

/-- The values that the wire can carry. -/
def wireRange (f : EnumField) : Interval :=
  bitsRange f.type.isSigned (min f.bitLength (f.length * 8))

/-- The declared value with the name. -/
def value? (f : EnumField) (name : String) : Option (Special Int) :=
  f.values.find? (·.name == name)

/-- The names of a number in the order of their declaration. -/
def namesOf (f : EnumField) (v : Int) : List String :=
  (f.values.filter (·.value == v)).map (·.name)

/-- No number has two names. -/
def isUnique (f : EnumField) : Bool :=
  f.values.all fun v => (f.namesOf v.value).length == 1

/-- The declared values in the order of their names. -/
def byName (f : EnumField) : List (Special Int) :=
  f.values.mergeSort fun a b => a.name ≤ b.name

/-- The numbers that are declared in their order, with their names. -/
def byValue (f : EnumField) : List (Int × List String) :=
  let numbers := ((f.values.map (·.value)).eraseDups).mergeSort fun a b => a ≤ b
  numbers.map fun v => (v, f.namesOf v)

end EnumField

namespace SetField

/-- The declared bit with the name. -/
def bit? (f : SetField) (name : String) : Option SetBit := f.bits.find? (·.name == name)

/-- The indices that no declared bit uses; a reserved bit counts as undeclared. -/
def reservedIndices (f : SetField) : List Nat :=
  (List.range f.bitLength).filter fun i => !f.bits.any fun b => b.idx == i && !b.reserved

/-- The declared bits in the order of their names. -/
def byName (f : SetField) : List SetBit := f.bits.mergeSort fun a b => a.name ≤ b.name

end SetField

end WireSchema
