import WireSchema.Literal.Flag

/-! # How numbers are stored

The storage type of an integer fixes its range in memory and the greatest length on the wire. What
the wire can carry depends on the bits: `bitsRange` is the range of so many bits.
-/

namespace WireSchema

/-- The order of the bytes of a value on the wire. -/
inductive Endian
  | little | big
  deriving DecidableEq, Repr, Inhabited

/-- The order that a property names, in letters of either case. -/
def Endian.ofText? (s : String) : Option Endian :=
  match String.ofList (Literal.lower s.toList) with
  | "little" => some .little
  | "big" => some .big
  | _ => none

/-- The order as properties name it. -/
def Endian.word : Endian → String
  | .little => "little"
  | .big => "big"

/-- The whole numbers from `lo` to `hi`. -/
structure Interval where
  lo : Int
  hi : Int
  deriving DecidableEq, Repr, Inhabited

/-- The number lies in the interval. -/
def Interval.contains (i : Interval) (v : Int) : Bool := i.lo ≤ v && v ≤ i.hi

/-- The values of integers of so many bits, at most 64. -/
def bitsRange (signed : Bool) (bits : Nat) : Interval :=
  if bits = 0 then ⟨0, 0⟩
  else if signed then
    let half : Nat := 1 <<< (min bits 64 - 1)
    ⟨-(half : Int), (half : Int) - 1⟩
  else
    let limit : Nat := 1 <<< min bits 64
    ⟨0, (limit : Int) - 1⟩

/-- The storage type of an integer. Those of variable length take seven bits of the value a byte. -/
inductive IntType
  | int8 | uint8 | int16 | uint16 | int32 | uint32 | int64 | uint64 | intvar | uintvar
  deriving DecidableEq, Repr, Inhabited

namespace IntType

/-- The type as properties name it. -/
def name : IntType → String
  | int8 => "int8"
  | uint8 => "uint8"
  | int16 => "int16"
  | uint16 => "uint16"
  | int32 => "int32"
  | uint32 => "uint32"
  | int64 => "int64"
  | uint64 => "uint64"
  | intvar => "intvar"
  | uintvar => "uintvar"

/-- Every type. -/
def all : List IntType :=
  [int8, uint8, int16, uint16, int32, uint32, int64, uint64, intvar, uintvar]

/-- The type that a property names. -/
def ofName? (s : String) : Option IntType := all.find? (·.name == s)

/-- The type has negative values. -/
def isSigned : IntType → Bool
  | int8 => true
  | int16 => true
  | int32 => true
  | int64 => true
  | intvar => true
  | _ => false

/-- The length on the wire depends on the value. -/
def isVariable : IntType → Bool
  | intvar => true
  | uintvar => true
  | _ => false

/-- The greatest length on the wire, in bytes. -/
def maxLength : IntType → Nat
  | int8 => 1
  | uint8 => 1
  | int16 => 2
  | uint16 => 2
  | int32 => 4
  | uint32 => 4
  | int64 => 8
  | uint64 => 8
  | intvar => 9
  | uintvar => 9

/-- The bits of the value that so many bytes carry. -/
def valueBits (t : IntType) (length : Nat) : Nat := if t.isVariable then length * 7 else length * 8

/-- The width of the type in memory, in bits. -/
def width (t : IntType) : Nat := if t.isVariable then 64 else t.maxLength * 8

/-- The values that the type has in memory. -/
def range (t : IntType) : Interval := bitsRange t.isSigned t.width

theorem ofName?_name (t : IntType) : ofName? t.name = some t := by
  cases t <;> decide

end IntType

/-- The storage type of a real number. -/
inductive FloatType
  | float | double
  deriving DecidableEq, Repr, Inhabited

namespace FloatType

/-- The type as properties name it. -/
def name : FloatType → String
  | float => "float"
  | double => "double"

/-- The type that a property names. -/
def ofName? : String → Option FloatType
  | "float" => some float
  | "double" => some double
  | _ => none

/-- The length on the wire, in bytes. -/
def length : FloatType → Nat
  | float => 4
  | double => 8

/-- The greatest finite number of four bytes. -/
def greatestSingle : Float := Float.ofBits 0x47EFFFFFE0000000

/-- The type has a value close to the number: infinities and what is not a number always fit. -/
def fits : FloatType → Float → Bool
  | float, x => !x.isFinite || x.abs ≤ greatestSingle
  | double, _ => true

end FloatType

end WireSchema
