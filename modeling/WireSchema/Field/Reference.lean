import WireSchema.Field.Basic

/-! # References of a field

`Field.refs` lists the references that a field and the fields inside it hold: those of members in
order, and of a list those of the element before those of the three prefixes. `Field.mapRefs`
changes them and nothing else.
-/

namespace WireSchema

/-- The reference of a named prefix. -/
def PrefixName.refs : PrefixName → List FieldRef
  | .path ref => [ref]
  | .sibling _ => []

/-- The named prefix with its reference changed. -/
def PrefixName.mapRefs (g : FieldRef → FieldRef) : PrefixName → PrefixName
  | .path ref => .path (g ref)
  | .sibling name => .sibling name

/-- The reference of a prefix, if there is a prefix and it has one. -/
def namedRefs : Option PrefixName → List FieldRef
  | none => []
  | some p => p.refs

mutual

/-- The references in a field, in the order they are declared. -/
def Field.refs : Field → List FieldRef
  | .mk _ (.int _) => []
  | .mk _ (.float _) => []
  | .mk _ (.enum _) => []
  | .mk _ (.set _) => []
  | .mk _ (.bitfield _ _ members) => memberRefs members
  | .mk _ (.bundle members _) => memberRefs members
  | .mk _ (.variant members _ _) => memberRefs members
  | .mk _ (.string s) => namedRefs s.lengthPrefix
  | .mk _ (.data d) => namedRefs d.lengthPrefix
  | .mk _ (.list (.inline e) _ c l el _) =>
    e.refs ++ (prefixRefs c ++ (prefixRefs l ++ prefixRefs el))
  | .mk _ (.list (.reference r) _ c l el _) =>
    r :: (prefixRefs c ++ (prefixRefs l ++ prefixRefs el))
  | .mk _ (.ref target _) => [target]
  | .mk _ (.optional o) => [o.field]

/-- The references in the fields. -/
def memberRefs : List Field → List FieldRef
  | [] => []
  | f :: fs => f.refs ++ memberRefs fs

/-- The references in a prefix of a list. -/
def prefixRefs : Option Prefix → List FieldRef
  | none => []
  | some (.inline f) => f.refs
  | some (.named p) => p.refs

end

mutual

/-- The field with its references changed. -/
def Field.mapRefs (g : FieldRef → FieldRef) : Field → Field
  | .mk core (.int f) => .mk core (.int f)
  | .mk core (.float f) => .mk core (.float f)
  | .mk core (.enum f) => .mk core (.enum f)
  | .mk core (.set f) => .mk core (.set f)
  | .mk core (.bitfield endian length members) =>
    .mk core (.bitfield endian length (mapMemberRefs g members))
  | .mk core (.bundle members aliases) => .mk core (.bundle (mapMemberRefs g members) aliases)
  | .mk core (.variant members default aliases) =>
    .mk core (.variant (mapMemberRefs g members) default aliases)
  | .mk core (.string s) =>
    .mk core (.string { s with lengthPrefix := s.lengthPrefix.map (·.mapRefs g) })
  | .mk core (.data d) =>
    .mk core (.data { d with lengthPrefix := d.lengthPrefix.map (·.mapRefs g) })
  | .mk core (.list (.inline e) count c l el fixed) =>
    .mk core (.list (.inline (e.mapRefs g)) count (mapPrefixRefs g c) (mapPrefixRefs g l)
      (mapPrefixRefs g el) fixed)
  | .mk core (.list (.reference r) count c l el fixed) =>
    .mk core (.list (.reference (g r)) count (mapPrefixRefs g c) (mapPrefixRefs g l)
      (mapPrefixRefs g el) fixed)
  | .mk core (.ref target bitLength) => .mk core (.ref (g target) bitLength)
  | .mk core (.optional o) => .mk core (.optional { o with field := g o.field })

/-- The fields with their references changed. -/
def mapMemberRefs (g : FieldRef → FieldRef) : List Field → List Field
  | [] => []
  | f :: fs => f.mapRefs g :: mapMemberRefs g fs

/-- The prefix of a list with its references changed. -/
def mapPrefixRefs (g : FieldRef → FieldRef) : Option Prefix → Option Prefix
  | none => none
  | some (.inline f) => some (.inline (f.mapRefs g))
  | some (.named p) => some (.named (p.mapRefs g))

end

/-- The references in a field of a layer or an element of a list. -/
def Part.refs : Part → List FieldRef
  | .inline f => f.refs
  | .reference r => [r]

/-- The part with its references changed. -/
def Part.mapRefs (g : FieldRef → FieldRef) : Part → Part
  | .inline f => .inline (f.mapRefs g)
  | .reference r => .reference (g r)

theorem memberRefs_eq_flatMap (fs : List Field) : memberRefs fs = fs.flatMap Field.refs := by
  induction fs with
  | nil => rfl
  | cons f fs ih => simp [memberRefs, ih]

theorem mapMemberRefs_eq_map (g : FieldRef → FieldRef) (fs : List Field) :
    mapMemberRefs g fs = fs.map (Field.mapRefs g) := by
  induction fs with
  | nil => rfl
  | cons f fs ih => simp [mapMemberRefs, ih]

@[simp] theorem Field.core_mapRefs (g : FieldRef → FieldRef) (f : Field) :
    (f.mapRefs g).core = f.core := by
  obtain ⟨core, body⟩ := f
  cases body with
  | list element count c l el fixed => cases element <;> simp [Field.mapRefs, Field.core]
  | _ => simp [Field.mapRefs, Field.core]

end WireSchema
