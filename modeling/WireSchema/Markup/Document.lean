import WireSchema.Markup.Element
import WireSchema.Markup.Token
import WireSchema.Text.Blank

/-! # Documents

A document is one element with blanks, comments and processing instructions around it. The tags have
to nest before anything else is looked at (`nests`); then the tokens are read from the first to the
last, and the first closing tag of another name, or entity reference without a meaning, ends the
reading.
-/

namespace WireSchema.Markup

/-- The tags nest in one root element, inside of `depth` elements that are open. `seen` says that
the root has begun. -/
def nests : Nat → Bool → List Token → Bool
  | depth, seen, [] => depth == 0 && seen
  | depth, seen, .opening _ _ _ empty :: ts =>
    !(depth == 0 && seen) && nests (if empty then depth else depth + 1) true ts
  | depth, seen, .closing _ _ :: ts => depth != 0 && nests (depth - 1) seen ts
  | depth, seen, .text raw :: ts => (depth != 0 || raw.all isSpace) && nests depth seen ts
  | depth, seen, .raw _ :: ts => depth != 0 && nests depth seen ts

/-- An element whose closing tag is still to come, with its parts so far, the last ones first. -/
structure OpenElement where
  line : Nat
  tag : String
  attrs : List (String × String)
  children : List Element
  texts : List String

namespace OpenElement

/-- The element as it is when its closing tag comes; its texts are joined by blanks. -/
def close (o : OpenElement) : Element :=
  ⟨o.tag, o.attrs, o.children.reverse, " ".intercalate o.texts.reverse, o.line⟩

/-- The element with one more child. -/
def addChild (o : OpenElement) (e : Element) : OpenElement :=
  { o with children := e :: o.children }

/-- The element with one more piece of text; an empty one is left out. -/
def addText (o : OpenElement) (cs : List Char) : OpenElement :=
  if cs.isEmpty then o else { o with texts := String.ofList cs :: o.texts }

end OpenElement

/-- The attributes with the entity references in their values replaced. -/
def decodeAttrs : List (String × List Char) → Except Fault (List (String × String))
  | [] => .ok []
  | (name, raw) :: rest =>
    match decode raw with
    | .error e => .error e
    | .ok value => (decodeAttrs rest).map ((name, String.ofList value) :: ·)

/-- Reads tokens that nest. `stack` holds the open elements, the innermost one first, and `root` the
root element once it is complete. -/
def build : List OpenElement → Option Element → List Token → Except Fault Element
  | _, some root, [] => .ok root
  | _, none, [] => .error .grammar
  | stack, root, .opening line tag attrs empty :: ts =>
    match decodeAttrs attrs with
    | .error e => .error e
    | .ok attrs =>
      let o : OpenElement := ⟨line, tag, attrs, [], []⟩
      if empty then
        match stack with
        | [] => build [] (some o.close) ts
        | p :: ps => build (p.addChild o.close :: ps) root ts
      else build (o :: stack) root ts
  | [], _, .closing _ _ :: _ => .error .grammar
  | o :: stack, root, .closing line tag :: ts =>
    if tag == o.tag then
      match stack with
      | [] => build [] (some o.close) ts
      | p :: ps => build (p.addChild o.close :: ps) root ts
    else .error (.unmatchedTag line tag o.tag)
  | [], root, .text _ :: ts => build [] root ts
  | o :: stack, root, .text raw :: ts =>
    match decode (Text.trim raw) with
    | .error e => .error e
    | .ok cs => build (o.addText cs :: stack) root ts
  | [], _, .raw _ :: _ => .error .grammar
  | o :: stack, root, .raw content :: ts =>
    build (o.addText (Text.trim content) :: stack) root ts

/-- The root element of a document. -/
def parse (text : String) : Except Fault Element :=
  match scan? text.toList with
  | none => .error .grammar
  | some ts => if nests 0 false ts then build [] none ts else .error .grammar

end WireSchema.Markup
