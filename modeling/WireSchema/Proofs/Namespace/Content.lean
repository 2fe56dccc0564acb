import WireSchema.Proofs.Namespace.Entries

/-! # The content of namespaces

What elements declare in the namespace that names lead to can be read off them, without regard to
the order in which everything is added (`declarationsAt`, `openingsAt`). Declarations enter a list
one after the other; those whose name is taken by then are repeated (`repeated`). -/

namespace WireSchema

open Markup

/-! ### What elements say -/

/-- The name of the namespace that an element declares, if its content is taken. -/
def enteredName? (e : Element) : Option String :=
  match (Population.readName e).result, (e.props Namespace.properties).single "description" with
  | .ok name, .ok _ => some name
  | _, _ => none

/-- The element declares a namespace with the name, and its content is taken. -/
def enters (name : String) (e : Element) : Bool := e.tag == "ns" && enteredName? e == some name

/-- The description that an element gives of the namespace with the name, if it declares one. -/
def opening? (name : String) (e : Element) : Option (Option String) :=
  if e.tag == "ns" && (Population.readName e).result.toOption == some name then
    some ((e.props Namespace.properties).single "description").toOption.join
  else none

/-- The declarations of the kind that a child is, or that it wraps. -/
def declaredBy (kind : DeclarationKind) (c : Element) : List Element :=
  if c.tag == kind.wrapper then c.children.filter fun d => kind.accepts d.tag
  else if kind.accepts c.tag then [c]
  else []

/-- The declarations that a child brings to the namespace that names lead to. -/
def declarationsAt (kind : DeclarationKind) : List String → Element → List Element
  | [], c => declaredBy kind c
  | name :: names, c =>
    if enters name c then c.children.flatMap fun d => declarationsAt kind names d else []

/-- The descriptions that a child gives of the namespace that names lead to. -/
def openingsAt : List String → Element → List (Option String)
  | [], _ => []
  | name :: names, c =>
    (if names.isEmpty then (opening? name c).toList else []) ++
      if enters name c then c.children.flatMap fun d => openingsAt names d else []

/-- A description after one more is given. -/
def describe (old given : Option String) : Option String := some (given.getD (old.getD ""))

/-! ### Lists that declarations enter -/

section register
variable (read : Element → Option Declaration)

/-- The entries after a declaration had its turn. -/
def enter (xs : List Entry) (e : Element) : List Entry :=
  match read e with
  | some d => (insertNamed Prod.fst (d.name, some d) xs).getD xs
  | none => xs

/-- The declaration can be read, but its name is taken. -/
def isTaken (xs : List Entry) (e : Element) : Bool :=
  (read e).any fun d => (insertNamed Prod.fst (d.name, some d) xs).isNone

section steps
variable {read} {xs : List Entry} {e : Element} {d : Declaration}

theorem enter_of_unread (h : read e = none) : enter read xs e = xs := by
  unfold enter
  rw [h]

theorem enter_of_read (h : read e = some d) :
    enter read xs e = (insertNamed Prod.fst (d.name, some d) xs).getD xs := by
  unfold enter
  rw [h]

theorem isTaken_of_unread (h : read e = none) : isTaken read xs e = false := by
  unfold isTaken
  rw [h]
  rfl

theorem isTaken_of_read (h : read e = some d) :
    isTaken read xs e = (insertNamed Prod.fst (d.name, some d) xs).isNone := by
  unfold isTaken
  rw [h]
  rfl

end steps

/-- The declarations whose name is taken when they have their turn. -/
def repeated (xs : List Entry) : List Element → List Element
  | [] => []
  | e :: es => (if isTaken read xs e then [e] else []) ++ repeated (enter read xs e) es

theorem repeated_append (xs : List Entry) (es es' : List Element) :
    repeated read xs (es ++ es') =
      repeated read xs es ++ repeated read (es.foldl (enter read) xs) es' := by
  induction es generalizing xs with
  | nil => rfl
  | cons e es ih =>
    rw [List.cons_append, repeated, repeated, ih, List.append_assoc]
    rfl

theorem repeated_singleton (xs : List Entry) (e : Element) :
    repeated read xs [e] = if isTaken read xs e then [e] else [] :=
  List.append_nil _

end register

/-- The reader of declarations in the namespace with the path, without bases. -/
def Setting.reader (setting : Setting) (scope : String) (kind : DeclarationKind) (e : Element) :
    Option Declaration :=
  (kind.read ⟨[], setting.version, setting.endian, scope⟩ e).result.toOption

/-! ### All namespaces at once -/

/-- What is said of the namespaces that names lead to. -/
structure Content where
  declarations : List String → DeclarationKind → List Element
  openings : List String → List (Option String)

namespace Content

/-- Nothing is said. -/
def none : Content := ⟨fun _ _ => [], fun _ => []⟩

/-- One content after the other. -/
def append (c d : Content) : Content :=
  ⟨fun names kind => c.declarations names kind ++ d.declarations names kind,
    fun names => c.openings names ++ d.openings names⟩

/-- Declarations of the kind in the namespace itself. -/
def ofKind (kind : DeclarationKind) (es : List Element) : Content :=
  ⟨fun names k => if names = [] ∧ k = kind then es else [], fun _ => []⟩

/-- The content of a namespace with the name, which is given a description first. -/
def within (name : String) (given : Option String) (c : Content) : Content where
  declarations
    | [], _ => []
    | first :: rest, kind => if name = first then c.declarations rest kind else []
  openings
    | [] => []
    | first :: rest =>
      if name = first then (if rest = [] then [given] else []) ++ c.openings rest else []

/-- The content of the children of an element. -/
def ofChildren (es : List Element) : Content :=
  ⟨fun names kind => es.flatMap (declarationsAt kind names),
    fun names => es.flatMap (openingsAt names)⟩

theorem declarations_ofKind_self (kind : DeclarationKind) (es : List Element) :
    (ofKind kind es).declarations [] kind = es :=
  if_pos ⟨rfl, rfl⟩

theorem declarations_ofKind_of_not {kind k : DeclarationKind} {names : List String}
    (h : ¬ (names = [] ∧ k = kind)) (es : List Element) :
    (ofKind kind es).declarations names k = [] :=
  if_neg h

/-- What children bring to nested namespaces. -/
def ofNested (es : List Element) : Content where
  declarations
    | [], _ => []
    | first :: rest, kind => es.flatMap (declarationsAt kind (first :: rest))
  openings names := es.flatMap (openingsAt names)

end Content

end WireSchema
