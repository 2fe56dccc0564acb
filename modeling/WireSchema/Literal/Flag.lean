import WireSchema.Text.Blank

/-! # Boolean literals

`true` and `1`, `false` and `0`, in letters of either case and with blanks around them.
-/

namespace WireSchema.Literal

/-- The text in lower-case letters; letters beyond ASCII stay as they are. -/
def lower (cs : List Char) : List Char := cs.map Char.toLower

/-- The truth value that a literal writes. -/
def bool? (s : String) : Option Bool :=
  match String.ofList (lower (Text.trim s.toList)) with
  | "true" => some true
  | "1" => some true
  | "false" => some false
  | "0" => some false
  | _ => none

end WireSchema.Literal
