import WireSchema.Text.Split

/-! # Names and paths

A name is an identifier of ASCII letters, digits and underscores. A path is one or more names joined
by dots; it leads from a namespace to a declaration inside it.
-/

namespace WireSchema.Literal

/-- A character that may begin a name. -/
def isNameStart (c : Char) : Bool := c.isAlpha || c == '_'

/-- A character that may continue a name. -/
def isNameRest (c : Char) : Bool := c.isAlphanum || c == '_'

/-- A nonempty identifier. -/
def isNameText : List Char → Bool
  | [] => false
  | c :: cs => isNameStart c && cs.all isNameRest

/-- `isNameText` on strings. -/
def isName (s : String) : Bool := isNameText s.toList

/-- Names joined by dots. -/
def isPath (s : String) : Bool := !s.isEmpty && (Text.pieces '.' s.toList).all isNameText

/-- The first name of a path and, after a dot, the rest of it. -/
def firstSegment (s : String) : String × Option String :=
  match Text.cutString '.' s with
  | some (first, rest) => (first, some rest)
  | none => (s, none)

/-- The names of a path in order. -/
def segments (s : String) : List String := Text.pieceStrings '.' s

end WireSchema.Literal
