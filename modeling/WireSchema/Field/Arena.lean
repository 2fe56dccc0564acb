import WireSchema.Field.Reference
import WireSchema.Field.Value
import WireSchema.Literal.Name

/-! # The arena of fields

The arena owns the namespace-level fields; references are bound to places in it. `resolved` follows
`ref` fields to the one that has a form on the wire. A chain of references that are bound and do not
form a cycle is no longer than the arena, so `resolved` gives up only after more steps than that.
-/

namespace WireSchema

/-- The namespace-level fields in the order they were accepted. -/
structure Arena where
  fields : Array Field

/-- The members that the aliases of a bundle or variant can name. -/
def Field.aliasScope? (f : Field) : Option (List Field) :=
  match f.body with
  | .bundle members _ => some members
  | .variant members _ _ => some members
  | _ => none

namespace Arena

/-- An arena without fields. -/
def empty : Arena := ⟨#[]⟩

/-- The number of fields. -/
def size (a : Arena) : Nat := a.fields.size

/-- The field at a place. -/
def get? (a : Arena) (id : FieldId) : Option Field := a.fields[id]?

/-- The arena with one more field, which has the place `a.size`. -/
def push (a : Arena) (f : Field) : Arena := ⟨a.fields.push f⟩

/-- The arena with the field at a place replaced. -/
def set (a : Arena) (id : FieldId) (f : Field) : Arena := ⟨a.fields.setIfInBounds id f⟩

/-- The field that a reference is bound to. -/
def target? (a : Arena) (r : FieldRef) : Option Field := r.target.bind a.get?

/-- The field of a part, declared inside or bound. -/
def partField? (a : Arena) : Part → Option Field
  | .inline f => some f
  | .reference r => a.target? r

/-- The field of a prefix. That of a sibling is not known here. -/
def prefixField? (a : Arena) : Prefix → Option Field
  | .inline f => some f
  | .named (.path r) => a.target? r
  | .named (.sibling _) => none

/-- Follows at most `steps` references. -/
def resolveWithin (a : Arena) : Nat → Field → Option Field
  | 0, _ => none
  | steps + 1, .mk core body =>
    match body with
    | .ref target _ => (a.target? target).bind (a.resolveWithin steps)
    | _ => some (.mk core body)

/-- The field with a form on the wire that `f` refers to, or `f` itself. -/
def resolved (a : Arena) (f : Field) : Option Field := a.resolveWithin (a.size + 1) f

/-- Follows names from `f`, through members and the references among them. -/
def memberAt? (a : Arena) : List String → Field → Option Field
  | [], _ => none
  | segment :: rest, f =>
    ((a.resolved f).bind Field.aliasScope?).bind fun members =>
      (members.find? (·.name == segment)).bind fun m =>
        if rest.isEmpty then some m else a.memberAt? rest m

/-- The member that the path of an alias of `f` leads to. -/
def aliasTarget? (a : Arena) (f : Field) (path : String) : Option Field :=
  a.memberAt? (Literal.segments path) f

end Arena

end WireSchema
