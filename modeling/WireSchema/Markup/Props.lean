import WireSchema.Finding.SchemaError
import WireSchema.Markup.Element

/-! # Properties of an element

A property is written as an attribute or as a child element with a listed tag that has no children
of its own; its value is then the attribute `value` or the text. Attributes come before children. A
property may be repeated; `single` and `required` refuse that.

`inheritFrom` lays an element over a base: its own properties win, and the children of the base come
first.
-/

namespace WireSchema.Markup

/-- The properties of one element in the order they are written. -/
structure Props where
  entries : List (String × String)

namespace Props

/-- The first value of a property. -/
def get? (p : Props) (key : String) : Option String := (p.entries.find? (·.1 == key)).map (·.2)

/-- The property is given. -/
def contains (p : Props) (key : String) : Bool := p.entries.any (·.1 == key)

/-- Every value of a property. -/
def all (p : Props) (key : String) : List String :=
  (p.entries.filter (·.1 == key)).map (·.2)

/-- The number of values of a property. -/
def count (p : Props) (key : String) : Nat := p.entries.countP (·.1 == key)

/-- The names of the properties, one for each value. -/
def keys (p : Props) : List String := p.entries.map (·.1)

/-- The names of the properties that are not expected. -/
def unknown (p : Props) (expected : List String) : List String :=
  p.keys.filter fun k => !expected.contains k

/-- The value of a property that may be given once. -/
def single (p : Props) (key : String) : Except SchemaError (Option String) :=
  if p.count key > 1 then .error (.duplicateProperty key) else .ok (p.get? key)

/-- The value of a property that is given exactly once. -/
def required (p : Props) (key : String) : Except SchemaError String :=
  match p.single key with
  | .error e => .error e
  | .ok none => .error (.missingProperty key)
  | .ok (some v) => .ok v

/-- The value of a property that may be given once, read by `read`; a value that cannot be read is
an error. -/
def parsed {α : Type} (p : Props) (key : String) (read : String → Option α) :
    Except SchemaError (Option α) :=
  match p.single key with
  | .error e => .error e
  | .ok none => .ok none
  | .ok (some v) =>
    match read v with
    | some a => .ok (some a)
    | none => .error (.unexpectedValue key v)

/-- `parsed` with the value of a property that is not given. -/
def parsedD {α : Type} (p : Props) (key : String) (read : String → Option α) (absent : α) :
    Except SchemaError α :=
  (p.parsed key read).map (·.getD absent)

/-- The text of a property that may be given once, empty if it is not given. -/
def textOf (p : Props) (key : String) : Except SchemaError String :=
  (p.single key).map (·.getD "")

end Props

namespace Element

/-- What the element says as a property of its parent. -/
def propertyValue? (e : Element) : Option String :=
  if !e.children.isEmpty then none
  else match e.attr "value" with
    | some v => some v
    | none => if e.text.isEmpty then none else some e.text

/-- The element is a property of its parent, whose property names are `names`. -/
def isPropertyChild (e : Element) (names : List String) : Bool :=
  names.contains e.tag && e.propertyValue?.isSome

/-- The attributes, and the children that are properties. -/
def props (e : Element) (names : List String) : Props :=
  ⟨e.attrs ++ (e.children.filter fun c => names.contains c.tag).filterMap fun c =>
    c.propertyValue?.map fun v => (c.tag, v)⟩

/-- The element over `base`: properties that it has itself are left out of the base, and so are the
base's name and what the base was laid over. -/
def inheritFrom (e base : Element) (names : List String) : Element :=
  let own := e.props names
  { tag := e.tag
    attrs :=
      (base.attrs.filter fun a => a.1 != "name" && a.1 != "reuse" && !own.contains a.1) ++
        e.attrs.filter fun a => a.1 != "reuse"
    children :=
      (base.children.filter fun c =>
        !(c.isPropertyChild names && (c.tag == "name" || own.contains c.tag))) ++ e.children
    text := e.text
    line := e.line }

end Element

end WireSchema.Markup
