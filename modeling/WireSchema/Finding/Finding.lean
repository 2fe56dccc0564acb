import WireSchema.Finding.SchemaError

/-! # Findings

A finding is an error or a warning at a line of the document that is being read. Which severity a
warning ends up with is not decided here but by the journal that takes the finding. A third kind of
finding is the mark of a reading that goes on without end, where nothing can be reported any more.
-/

namespace WireSchema

/-- Something odd in an element that does not keep it from being used. -/
inductive Warning
  | unknownProperty (tag key : String)
  | unexpectedChild (tag child : String)
  | bitLengthIgnored (name : String)
  | notSerialisable (name what : String) (value lo hi : Int)
  | unknownAliasTarget (owner name path : String)
  deriving DecidableEq, Repr

/-- The warning as it is reported. -/
def Warning.message : Warning → String
  | .unknownProperty tag key => s!"<{tag}>: unknown property \"{key}\""
  | .unexpectedChild tag child => s!"<{tag}>: unexpected child element <{child}>"
  | .bitLengthIgnored name =>
    s!"\"{name}\": property \"bitLength\" is applicable only to bitfield members"
  | .notSerialisable name what value lo hi =>
    s!"\"{name}\": {what} {value} cannot be serialised within [{lo}, {hi}]"
  | .unknownAliasTarget owner name path =>
    s!"\"{owner}\": alias \"{name}\" refers to unknown member \"{path}\", ignored"

/-- What a finding reports; `endless` marks an element whose reading never ends. -/
inductive Cause
  | error (e : SchemaError)
  | warning (w : Warning)
  | endless
  deriving DecidableEq, Repr

/-- A cause at a line; line 0 is the document as a whole. -/
structure Finding where
  line : Nat
  cause : Cause
  deriving DecidableEq, Repr

/-- The finding is the mark of a reading without end. -/
def Finding.isEndless (f : Finding) : Bool := f.cause == .endless

/-- The finding is an error. So is the mark of a reading without end: what is marked is not read. -/
def Finding.isError (f : Finding) : Bool :=
  match f.cause with
  | .warning _ => false
  | _ => true

/-- The finding as it is reported; a mark has no text. -/
def Finding.message (f : Finding) : String :=
  match f.cause with
  | .error e => e.message
  | .warning w => w.message
  | .endless => ""

end WireSchema
