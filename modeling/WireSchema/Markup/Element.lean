/-! # Elements

A document is a tree of elements. An element has a tag, attributes in the order they are written, in
which a name may be repeated, children, a text, and the line it begins on.
-/

namespace WireSchema.Markup

/-- One element of a document. -/
structure Element where
  tag : String
  attrs : List (String × String)
  children : List Element
  text : String
  line : Nat

namespace Element

instance : Inhabited Element := ⟨⟨"", [], [], "", 0⟩⟩

theorem sizeOf_of_mem_children {e c : Element} (h : c ∈ e.children) : sizeOf c < sizeOf e := by
  obtain ⟨tag, attrs, children, text, line⟩ := e
  have : sizeOf c < sizeOf children := List.sizeOf_lt_of_mem h
  rw [Element.mk.sizeOf_spec]
  omega

/-- Induction on elements: what holds of an element when it holds of its children, holds of every
element. -/
@[elab_as_elim]
theorem nested_induction {P : Element → Prop}
    (step : ∀ e : Element, (∀ c ∈ e.children, P c) → P e) (e : Element) : P e :=
  step e fun c _ => nested_induction step c
termination_by sizeOf e
decreasing_by exact sizeOf_of_mem_children ‹_›

/-- The value of the first attribute with the name. -/
def attr (e : Element) (name : String) : Option String :=
  (e.attrs.find? (·.1 == name)).map (·.2)

/-- The children with the tag, in order. -/
def childrenNamed (e : Element) (tag : String) : List Element :=
  e.children.filter (·.tag == tag)

/-- Some child has the tag. -/
def hasChild (e : Element) (tag : String) : Bool := e.children.any (·.tag == tag)

mutual

/-- The number of elements in the tree. -/
def size : Element → Nat
  | ⟨_, _, children, _, _⟩ => sizeAll children + 1

/-- The number of elements in the trees. -/
def sizeAll : List Element → Nat
  | [] => 0
  | e :: es => e.size + sizeAll es

end

mutual

/-- The elements of the tree with their depths, each before its children. -/
def flatten (depth : Nat) : Element → List (Nat × Element)
  | ⟨tag, attrs, children, text, line⟩ =>
    (depth, ⟨tag, attrs, children, text, line⟩) :: flattenAll (depth + 1) children

/-- The elements of the trees with their depths. -/
def flattenAll (depth : Nat) : List Element → List (Nat × Element)
  | [] => []
  | e :: es => e.flatten depth ++ flattenAll depth es

end

end Element

end WireSchema.Markup
