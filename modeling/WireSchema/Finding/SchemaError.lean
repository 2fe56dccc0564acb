import WireSchema.Field.Kind
import WireSchema.Markup.Fault

/-! # Errors of a schema

One constructor per cause. `SchemaError.message` is the only place that words them.
-/

namespace WireSchema

/-- What a declaration with a name declares. -/
inductive Noun
  | field | interface | message | frame | platform | memberAlias | specialValue | enumValue | bit
  deriving DecidableEq, Repr

/-- The noun as messages name it. -/
def Noun.word : Noun → String
  | .field => "field"
  | .interface => "interface"
  | .message => "message"
  | .frame => "frame"
  | .platform => "platform"
  | .memberAlias => "alias"
  | .specialValue => "special value"
  | .enumValue => "enum value"
  | .bit => "bit"

/-- Why a file cannot be read. -/
inductive FileFault
  | notFound | notDirectory | isDirectory | notText | other (message : String)
  deriving DecidableEq, Repr

/-- The fault as it is reported. -/
def FileFault.message : FileFault → String
  | .notFound => "No such file or directory (os error 2)"
  | .notDirectory => "Not a directory (os error 20)"
  | .isDirectory => "Is a directory (os error 21)"
  | .notText => "stream did not contain valid UTF-8"
  | .other message => message

/-- Why a length, or an index bounded by one, is refused. -/
inductive LengthFault
  | typeTooShort (length : Nat) (type : String)
  | beyondSet (length : Nat)
  | bitLength (bits limit : Nat)
  | bitIndex (bit : String) (index limit : Nat)
  | longDefault (length : Nat)
  deriving DecidableEq, Repr

/-- The fault as it is reported. -/
def LengthFault.message : LengthFault → String
  | .typeTooShort length type => s!"length {length} is not supported by type {type}"
  | .beyondSet length => s!"length {length} must be within 1..=8"
  | .bitLength bits limit => s!"bit length {bits} must be within 1..={limit}"
  | .bitIndex bit index limit =>
    s!"bit \"{bit}\" index {index} exceeds bit length {limit}"
  | .longDefault length => s!"default value is longer than the fixed length {length}"

/-- Why a count or length property is refused. -/
inductive PrefixFault
  | namedAndInline (key : String)
  | itself (key : String)
  | unknownSibling (key sibling : String)
  | notIntegral (key : String) (kind : FieldKind)
  | exclusive (first second : String)
  | fixedWithoutLength
  | lengthAndPrefix
  | lengthAndSuffix
  | prefixAndSuffix
  deriving DecidableEq, Repr

/-- The fault as it is reported. -/
def PrefixFault.message : PrefixFault → String
  | .namedAndInline key => s!"\"{key}\" is both referenced and defined inline"
  | .itself key => s!"\"{key}\" refers to the field itself"
  | .unknownSibling key sibling => s!"\"{key}\" refers to unknown sibling \"{sibling}\""
  | .notIntegral key kind => s!"\"{key}\" must be an integral field, not {kind.tag}"
  | .exclusive first second => s!"\"{first}\" and \"{second}\" cannot be used together"
  | .fixedWithoutLength => "\"elemFixedLength\" requires \"elemLengthPrefix\""
  | .lengthAndPrefix => "fixed \"length\" cannot be combined with \"lengthPrefix\""
  | .lengthAndSuffix => "fixed \"length\" cannot be combined with a terminating suffix"
  | .prefixAndSuffix => "\"lengthPrefix\" cannot be combined with a terminating suffix"

/-- Why the layers of a frame do not go together. -/
inductive LayerFault
  | payloadCount (found : Nat)
  | severalIds
  | repeatedName (layer : String)
  | wrongSide (layer target : String)
  | unknownInterfaceField (layer field : String)
  | unfitField (layerKind layer : String) (kind : FieldKind)
  deriving DecidableEq, Repr

/-- The fault as it is reported. -/
def LayerFault.message : LayerFault → String
  | .payloadCount found => s!"exactly one payload layer is required, found {found}"
  | .severalIds => "only one id layer is allowed"
  | .repeatedName layer => s!"layer \"{layer}\" has already been defined"
  | .wrongSide layer target =>
    s!"checksum layer \"{layer}\" covers layer \"{target}\" that is not on the correct side of it"
  | .unknownInterfaceField layer field =>
    s!"value layer \"{layer}\" refers to unknown interface field \"{field}\""
  | .unfitField layerKind layer kind =>
    s!"{layerKind} layer \"{layer}\" cannot use a field of kind {kind.tag}"

/-- Why a declaration is refused that has all its properties. -/
inductive DeclarationFault
  | sinceBelowParent (since parent : Nat)
  | deprecatedAboveParent (deprecated parent : Nat)
  | aliasOfMember (name : String)
  | unfitRole (role : SemanticType) (kind : FieldKind)
  | unknownBase (path : String)
  | baseOfOtherKind (path baseTag tag : String)
  | offsetTooLarge (offset : Int)
  | reversedRange (lo hi : Int)
  | invalidRange (lo hi : String)
  | noEnumValue
  | unknownDefault (name : String)
  | emptyBitfield
  | emptyBundle
  | defaultIndex (index : Int) (members : Nat)
  | defaultNotMember (name : String)
  | notOneField (key : String)
  | elementNotOnce
  | inlineLengthPrefix
  | unknownCondition (sibling : String)
  | severalVersionFields
  | unknownInterface (path : String)
  | fromAndUntil
  | payloadWithField
  | layerFieldNotOnce
  | severalDefaultInterfaces
  deriving DecidableEq, Repr

/-- The fault as it is reported. -/
def DeclarationFault.message : DeclarationFault → String
  | .sinceBelowParent since parent =>
    s!"since version ({since}) is smaller than that of the parent ({parent})"
  | .deprecatedAboveParent deprecated parent =>
    s!"deprecated version ({deprecated}) is greater than that of the parent ({parent})"
  | .aliasOfMember name => s!"alias \"{name}\" clashes with a member of the same name"
  | .unfitRole role kind =>
    s!"semantic type {role.title} is not applicable to {kind.tag} fields"
  | .unknownBase path => s!"cannot find field \"{path}\" to reuse"
  | .baseOfOtherKind path baseTag tag => s!"reused field \"{path}\" is <{baseTag}>, not <{tag}>"
  | .offsetTooLarge offset => s!"serialisation offset {offset} is too large"
  | .reversedRange lo hi => s!"valid range [{lo}, {hi}] is reversed"
  | .invalidRange lo hi => s!"invalid valid range [{lo}, {hi}]"
  | .noEnumValue => "enum must define at least one value"
  | .unknownDefault name => s!"unknown default value \"{name}\""
  | .emptyBitfield => "bitfield must have members"
  | .emptyBundle => "bundle must have members"
  | .defaultIndex index members =>
    s!"default member index {index} is out of range (0..{members})"
  | .defaultNotMember name => s!"default member \"{name}\" is not a member"
  | .notOneField key => s!"\"{key}\" must contain exactly one field"
  | .elementNotOnce => "list element must be defined exactly once"
  | .inlineLengthPrefix =>
    "\"lengthPrefix\" cannot be defined inline, reference a field instead"
  | .unknownCondition sibling => s!"condition refers to unknown sibling \"{sibling}\""
  | .severalVersionFields => "only one field may have the \"version\" semantic type"
  | .unknownInterface path => s!"cannot find interface \"{path}\""
  | .fromAndUntil => "\"from\" and \"until\" cannot be used together"
  | .payloadWithField => "payload layer cannot have a field"
  | .layerFieldNotOnce => "layer field must be defined exactly once"
  | .severalDefaultInterfaces =>
    "only one interface without a name may be declared per namespace"

/-- Why an element of the schema, or the schema as a whole, is refused. -/
inductive SchemaError
  | file (fault : FileFault)
  | document (fault : Markup.Fault)
  | notSchema (tag : String)
  | missingProperty (key : String)
  | duplicateProperty (key : String)
  | unexpectedValue (key value : String)
  | invalidName (name : String)
  | duplicateName (noun : Noun) (name : String)
  | versionWindow (name : String) (since deprecated : Nat)
  | sinceAboveSchema (name : String) (since schema : Nat)
  | length (name : String) (fault : LengthFault)
  | bitLengthMismatch (name : String) (expected actual : Nat)
  | variableLengthMember (name : String)
  | bitfieldMemberKind (name : String) (kind : FieldKind)
  | outOfTypeRange (name value : String)
  | duplicateValue (name value existing : String)
  | unresolvedReference (path : String)
  | prefixConflict (name : String) (fault : PrefixFault)
  | layerComposition (frame : String) (fault : LayerFault)
  | referenceCycle (name : String)
  | unknownFieldKind (tag : String)
  | invalidMembers (name : String)
  | versionDependentMember (variant member : String)
  | unknownMessageId (message id : String)
  | duplicateMessageId (message : String) (id : Int) (existing : String)
  | undeclaredPlatform (message platform : String)
  | invalid (name : String) (fault : DeclarationFault)
  | otherSchema (name : String)
  | documentAfterValidation
  | noSchema
  | forcedAboveSchema (forced schema : Nat)
  deriving DecidableEq, Repr

/-- The error as it is reported. -/
def SchemaError.message : SchemaError → String
  | .file fault => s!"IO: {fault.message}"
  | .document fault => fault.message
  | .notSchema tag => s!"root element must be <schema>, not <{tag}>"
  | .missingProperty key => s!"missing required property \"{key}\""
  | .duplicateProperty key => s!"property \"{key}\" may be defined only once"
  | .unexpectedValue key value => s!"property \"{key}\" has unexpected value ({value})"
  | .invalidName name => s!"invalid name \"{name}\""
  | .duplicateName noun name => s!"{noun.word} \"{name}\" has already been defined"
  | .versionWindow name since deprecated =>
    s!"\"{name}\": deprecated version ({deprecated}) must be greater than since version ({since})"
  | .sinceAboveSchema name since schema =>
    s!"\"{name}\": since version ({since}) is greater than the schema version ({schema})"
  | .length name fault => s!"\"{name}\": {fault.message}"
  | .bitLengthMismatch name expected actual =>
    s!"bitfield \"{name}\": members occupy {actual} bits, expected {expected}"
  | .variableLengthMember name => s!"bitfield member \"{name}\" cannot have variable length type"
  | .bitfieldMemberKind name kind =>
    s!"bitfield member \"{name}\" of kind {kind.tag} is not allowed"
  | .outOfTypeRange name value => s!"\"{name}\": value \"{value}\" is outside the range of the type"
  | .duplicateValue name value existing =>
    s!"\"{name}\": value {value} has already been defined as \"{existing}\""
  | .unresolvedReference path => s!"cannot resolve field reference \"{path}\""
  | .prefixConflict name fault => s!"\"{name}\": {fault.message}"
  | .layerComposition frame fault => s!"frame \"{frame}\": {fault.message}"
  | .referenceCycle name => s!"reference cycle through \"{name}\""
  | .unknownFieldKind tag => s!"unknown field kind <{tag}>"
  | .invalidMembers name => s!"\"{name}\" has invalid members"
  | .versionDependentMember variant member =>
    s!"variant \"{variant}\": version dependent member \"{member}\" is not supported"
  | .unknownMessageId message id => s!"message \"{message}\": id \"{id}\" cannot be recognised"
  | .duplicateMessageId message id existing =>
    s!"message \"{message}\": id {id} is already used by \"{existing}\""
  | .undeclaredPlatform message platform =>
    s!"message \"{message}\": platform \"{platform}\" has not been declared"
  | .invalid name fault => s!"\"{name}\": {fault.message}"
  | .otherSchema name => s!"all documents must describe the same schema \"{name}\""
  | .documentAfterValidation => "cannot add documents after validation"
  | .noSchema => "no schema has been parsed"
  | .forcedAboveSchema forced schema =>
    s!"forced version ({forced}) is greater than the schema version ({schema})"

end WireSchema
