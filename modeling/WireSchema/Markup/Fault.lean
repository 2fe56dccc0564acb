/-! # Faults of a document

What makes a text no document: it does not follow the grammar, a closing tag does not match, or an
entity reference cannot be decoded.
-/

namespace WireSchema.Markup

/-- Why a text is no document. -/
inductive Fault
  | grammar
  | unmatchedTag (line : Nat) (closing opened : String)
  | unterminatedEntity (text : String)
  | unknownEntity (name : String)
  deriving DecidableEq, Repr

/-- The fault as it is reported. -/
def Fault.message : Fault → String
  | .grammar => "Parse error"
  | .unmatchedTag line closing opened =>
    s!"Line {line}: closing tag </{closing}> does not match <{opened}>"
  | .unterminatedEntity text => s!"Unterminated entity reference in \"{text}\""
  | .unknownEntity name => s!"Unknown entity reference &{name};"

end WireSchema.Markup
