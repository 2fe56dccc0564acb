/-! # Kinds of fields

A field is declared by an element whose tag is the name of its kind. `FieldKind.ofTag?` reads the
tag and `FieldKind.tag` writes it (`ofTag?_tag`).
-/

namespace WireSchema

/-- The twelve kinds of fields. -/
inductive FieldKind
  | int | float | enum | set | bitfield | bundle | variant | string | data | list | ref | optional
  deriving DecidableEq, Repr

/-- The tag that declares a field of the kind. -/
def FieldKind.tag : FieldKind → String
  | .int => "int"
  | .float => "float"
  | .enum => "enum"
  | .set => "set"
  | .bitfield => "bitfield"
  | .bundle => "bundle"
  | .variant => "variant"
  | .string => "string"
  | .data => "data"
  | .list => "list"
  | .ref => "ref"
  | .optional => "optional"

/-- Every kind. -/
def FieldKind.all : List FieldKind :=
  [.int, .float, .enum, .set, .bitfield, .bundle, .variant, .string, .data, .list, .ref, .optional]

/-- The kind that a tag declares. -/
def FieldKind.ofTag? (tag : String) : Option FieldKind := FieldKind.all.find? (·.tag == tag)

/-- The tag declares a field. -/
def isFieldTag (tag : String) : Bool := (FieldKind.ofTag? tag).isSome

theorem FieldKind.ofTag?_tag (k : FieldKind) : FieldKind.ofTag? k.tag = some k := by
  cases k <;> decide

/-- The role of a field in the protocol, apart from its form on the wire. -/
inductive SemanticType
  | none | version | messageId | length
  deriving DecidableEq, Repr

/-- The role that a property names; an empty text is no role. -/
def SemanticType.ofText? : String → Option SemanticType
  | "" => some .none
  | "none" => some .none
  | "version" => some .version
  | "messageId" => some .messageId
  | "length" => some .length
  | _ => Option.none

/-- A field of the kind can have the role. -/
def SemanticType.fits : SemanticType → FieldKind → Bool
  | .none, _ => true
  | .version, k => k == .int
  | .length, k => k == .int
  | .messageId, k => k == .enum

/-- The role as messages name it. -/
def SemanticType.title : SemanticType → String
  | .none => "None"
  | .version => "Version"
  | .messageId => "MessageId"
  | .length => "Length"

end WireSchema
