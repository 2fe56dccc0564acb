import WireSchema.Field.Kind
import WireSchema.Field.Storage
import WireSchema.Version

/-! # Fields

A field has a core, which all kinds share, and a body of its kind. Fields nest: the members of
bitfields, bundles and variants, the elements of lists, and the prefixes of lists may be fields that
are declared inside. Other fields are named by references, which are bound to a place in the arena
of fields once all documents are read.
-/

namespace WireSchema

/-- A place in the arena of namespace-level fields. -/
abbrev FieldId := Nat

/-- The path of a namespace-level field, and the place of that field once it is found. -/
structure FieldRef where
  path : String
  target : Option FieldId
  line : Nat
  deriving DecidableEq, Repr

/-- What the fields of all kinds have. A field inside another element has no external reference. -/
structure FieldCore where
  name : String
  displayName : String
  description : String
  window : Window
  externalRef : String
  semanticType : SemanticType
  line : Nat
  deriving DecidableEq, Repr

/-- A named value. -/
structure Special (α : Type) where
  name : String
  value : α
  window : Window
  description : String
  displayName : String
  deriving DecidableEq, Repr

/-- An integer. The length is the greatest one if it varies. -/
structure IntField where
  type : IntType
  endian : Endian
  length : Nat
  bitLength : Nat
  serOffset : Int
  defaultValue : Int
  scaling : Int × Int
  units : Option String
  displayDecimals : Nat
  validRanges : List Interval
  specials : List (Special Int)
  deriving DecidableEq, Repr

/-- A real number. -/
structure FloatField where
  type : FloatType
  endian : Endian
  defaultValue : Float
  validRanges : List (Float × Float)
  specials : List (Special Float)
  units : Option String

/-- An integer with named values, which are kept in the order of their declaration. -/
structure EnumField where
  type : IntType
  endian : Endian
  length : Nat
  bitLength : Nat
  nonUniqueAllowed : Bool
  hexAssign : Bool
  validCheckVersion : Bool
  defaultValue : Int
  values : List (Special Int)
  deriving DecidableEq, Repr

/-- A named bit. -/
structure SetBit where
  name : String
  idx : Nat
  defaultValue : Bool
  reserved : Bool
  window : Window
  description : String
  displayName : String
  deriving DecidableEq, Repr

/-- Named bits, which are kept in the order of their declaration. -/
structure SetField where
  type : IntType
  endian : Endian
  length : Nat
  bitLength : Nat
  defaultValue : Bool
  reservedValue : Bool
  nonUniqueAllowed : Bool
  validCheckVersion : Bool
  bits : List SetBit
  deriving DecidableEq, Repr

/-- Where a count or length is read: a namespace-level field before the data, or a sibling that
comes earlier. -/
inductive PrefixName
  | path (ref : FieldRef)
  | sibling (name : String)
  deriving DecidableEq, Repr

/-- A text. A fixed length, a prefix with the length and a terminating zero exclude each other. -/
structure StringField where
  length : Option Nat
  defaultValue : String
  encoding : Option String
  zeroTermSuffix : Bool
  lengthPrefix : Option PrefixName
  deriving DecidableEq, Repr

/-- A sequence of octets. -/
structure DataField where
  length : Option Nat
  defaultValue : List UInt8
  lengthPrefix : Option PrefixName
  deriving DecidableEq, Repr

/-- What is assumed of an optional field before it is read. -/
inductive OptionalMode
  | tentative | present | missing
  deriving DecidableEq, Repr

/-- The mode as it is printed. -/
def OptionalMode.word : OptionalMode → String
  | .tentative => "tentative"
  | .present => "exists"
  | .missing => "missing"

/-- A field that may be absent. -/
structure OptionalField where
  field : FieldRef
  defaultMode : OptionalMode
  cond : Option String
  missingOnReadFail : Bool
  deriving DecidableEq, Repr

/-- A second name for a member, or for a member of a member. -/
structure Alias where
  name : String
  fieldPath : String
  description : String
  line : Nat
  deriving DecidableEq, Repr

mutual

/-- A field of any kind. -/
inductive Field
  | mk (core : FieldCore) (body : Body)

/-- What a field of one kind has besides the core. -/
inductive Body
  | int (f : IntField)
  | float (f : FloatField)
  | enum (f : EnumField)
  | set (f : SetField)
  | bitfield (endian : Endian) (length : Nat) (members : List Field)
  | bundle (members : List Field) (aliases : List Alias)
  | variant (members : List Field) (defaultMember : Option Nat) (aliases : List Alias)
  | string (f : StringField)
  | data (f : DataField)
  | list (element : Part) (count : Option Nat)
      (countPrefix lengthPrefix elemLengthPrefix : Option Prefix) (elemFixedLength : Bool)
  | ref (target : FieldRef) (bitLength : Option Nat)
  | optional (f : OptionalField)

/-- A field declared inside, or a namespace-level field by its path. -/
inductive Part
  | inline (field : Field)
  | reference (ref : FieldRef)

/-- Where a count or length of a list is read: a field declared inside, or one that is named. -/
inductive Prefix
  | inline (field : Field)
  | named (source : PrefixName)

end

namespace Field

/-- The core of a field. -/
def core : Field → FieldCore
  | mk core _ => core

/-- The body of a field. -/
def body : Field → Body
  | mk _ body => body

/-- The name of a field, empty for a reference that takes the name of its target. -/
def name (f : Field) : String := f.core.name

/-- The window of a field. -/
def window (f : Field) : Window := f.core.window

/-- The path of a namespace-level field. -/
def externalRef (f : Field) : String := f.core.externalRef

end Field

/-- The kind of field that has such a body. -/
def Body.kind : Body → FieldKind
  | .int _ => .int
  | .float _ => .float
  | .enum _ => .enum
  | .set _ => .set
  | .bitfield .. => .bitfield
  | .bundle .. => .bundle
  | .variant .. => .variant
  | .string _ => .string
  | .data _ => .data
  | .list .. => .list
  | .ref .. => .ref
  | .optional _ => .optional

/-- The members of a bitfield, bundle or variant. -/
def Body.members : Body → List Field
  | .bitfield _ _ members => members
  | .bundle members _ => members
  | .variant members _ _ => members
  | _ => []

/-- The aliases of a bundle or variant. -/
def Body.aliases : Body → List Alias
  | .bundle _ aliases => aliases
  | .variant _ _ aliases => aliases
  | _ => []

namespace Field

/-- The kind of a field. -/
def kind (f : Field) : FieldKind := f.body.kind

/-- The members of a bitfield, bundle or variant. -/
def members (f : Field) : List Field := f.body.members

/-- The aliases of a bundle or variant. -/
def aliases (f : Field) : List Alias := f.body.aliases

/-- The field as an integer. -/
def int? (f : Field) : Option IntField :=
  match f.body with
  | .int i => some i
  | _ => none

/-- The field as a real number. -/
def float? (f : Field) : Option FloatField :=
  match f.body with
  | .float x => some x
  | _ => none

/-- The field as an enumeration. -/
def enum? (f : Field) : Option EnumField :=
  match f.body with
  | .enum e => some e
  | _ => none

/-- The field as a set. -/
def set? (f : Field) : Option SetField :=
  match f.body with
  | .set s => some s
  | _ => none

end Field

/-- A bundle without members, which stands for no field at all. -/
def Field.blank : Field :=
  .mk ⟨"", "", "", .always, "", .none, 0⟩ (.bundle [] [])

instance : Inhabited Field := ⟨.blank⟩

end WireSchema
