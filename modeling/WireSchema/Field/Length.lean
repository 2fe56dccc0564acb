import WireSchema.Field.Arena

/-! # Lengths of fields

The least and the greatest number of bytes that a field takes on the wire. Lengths are kept within
64 bits: `unbounded` is the greatest one, sums and products stop at it, and it stands for no bound
at all. A reference that is not bound has length 0 at least and no bound.

`minLengthVia` and `maxLengthVia` follow the structure of a field and take the lengths behind its
references from a function. The lengths in an arena go from reference to reference; where references
form no cycle, there are at most as many in a row as the arena has fields.
-/

namespace WireSchema

/-- The greatest length, which stands for no bound. -/
def unbounded : Nat := Literal.word64Limit - 1

/-- The sum, kept within 64 bits. -/
def addLengths (a b : Nat) : Nat := min unbounded (a + b)

/-- The product, kept within 64 bits. -/
def mulLengths (a b : Nat) : Nat := min unbounded (a * b)

/-- A number of bits or elements as a length; there is no greater one than `unbounded`. -/
def lengthOfInt (v : Int) : Nat := min unbounded v.toNat

/-- The greatest number that a field can state as a count or length. -/
def Arena.greatestCount (a : Arena) (source : Option Field) : Nat :=
  match (source.bind a.resolved).bind Field.int? with
  | some i => lengthOfInt i.wireRange.hi
  | none => unbounded

/-- The greatest number that a prefix can state. -/
def Arena.prefixLimit (a : Arena) (p : Prefix) : Nat := a.greatestCount (a.prefixField? p)

/-- The bytes of a named prefix, `via` giving those of the field that a path leads to. -/
def PrefixName.lengthVia (via : FieldRef → Nat) : PrefixName → Nat
  | .path r => via r
  | .sibling _ => 0

/-- The least length of a sequence of bytes. -/
def minBytes (via : FieldRef → Nat) (length : Option Nat) (source : Option PrefixName)
    (suffix : Nat) : Nat :=
  match length, source with
  | some n, _ => n
  | none, some p => p.lengthVia via
  | none, none => suffix

/-- The greatest length of a sequence of bytes. -/
def maxBytes (a : Arena) (via : FieldRef → Nat) (length : Option Nat)
    (source : Option PrefixName) : Nat :=
  match length, source with
  | some n, _ => n
  | none, some p => addLengths (p.lengthVia via) (a.prefixLimit (.named p))
  | none, none => unbounded

/-- The least length of a list from those of an element and its prefixes. -/
def minOfList (count : Option Nat) (element countPrefix lengthPrefix elemLengthPrefix : Nat)
    (hasCountPrefix elemFixedLength : Bool) : Nat :=
  match count with
  | some n =>
    if elemFixedLength then addLengths elemLengthPrefix (mulLengths n element)
    else mulLengths n (addLengths element elemLengthPrefix)
  | none => if hasCountPrefix then countPrefix else lengthPrefix

/-- The greatest length of a list from those of an element and its prefixes; `counted` and `sized`
are the greatest numbers that the prefixes with the count and the length can state. -/
def maxOfList (count : Option Nat) (element countPrefix lengthPrefix elemLengthPrefix : Nat)
    (counted sized : Option Nat) (elemFixedLength : Bool) : Nat :=
  let each := if elemFixedLength then element else addLengths element elemLengthPrefix
  let shared := if elemFixedLength then elemLengthPrefix else 0
  match count, counted, sized with
  | some n, _, _ => addLengths shared (mulLengths n each)
  | none, some n, _ => addLengths (addLengths countPrefix shared) (mulLengths n each)
  | none, none, some n => addLengths lengthPrefix n
  | none, none, none => unbounded

mutual

/-- The least length of a field, `via` giving that of the field a reference is bound to. -/
def Field.minLengthVia (via : FieldRef → Nat) : Field → Nat
  | .mk _ (.int i) => i.minLength
  | .mk _ (.float x) => x.type.length
  | .mk _ (.enum e) => e.length
  | .mk _ (.set s) => s.length
  | .mk _ (.bitfield _ length _) => length
  | .mk _ (.bundle members _) => minOfMembers via members
  | .mk _ (.variant members _ _) => (leastOfMembers via members).getD 0
  | .mk _ (.string s) => minBytes via s.length s.lengthPrefix (if s.zeroTermSuffix then 1 else 0)
  | .mk _ (.data d) => minBytes via d.length d.lengthPrefix 0
  | .mk _ (.list (.inline e) count c l el fixed) =>
    minOfList count (e.minLengthVia via) (minOfPrefix via c) (minOfPrefix via l)
      (minOfPrefix via el) c.isSome fixed
  | .mk _ (.list (.reference r) count c l el fixed) =>
    minOfList count (via r) (minOfPrefix via c) (minOfPrefix via l) (minOfPrefix via el) c.isSome
      fixed
  | .mk _ (.ref target _) => via target
  | .mk _ (.optional _) => 0

/-- The sum of the least lengths. -/
def minOfMembers (via : FieldRef → Nat) : List Field → Nat
  | [] => 0
  | f :: fs => addLengths (f.minLengthVia via) (minOfMembers via fs)

/-- The least of the least lengths. -/
def leastOfMembers (via : FieldRef → Nat) : List Field → Option Nat
  | [] => none
  | f :: fs =>
    match leastOfMembers via fs with
    | none => some (f.minLengthVia via)
    | some n => some (min (f.minLengthVia via) n)

/-- The least length of a prefix; one that is not there has no bytes here. -/
def minOfPrefix (via : FieldRef → Nat) : Option Prefix → Nat
  | none => 0
  | some (.inline f) => f.minLengthVia via
  | some (.named p) => p.lengthVia via

end

mutual

/-- The greatest length of a field, `via` giving that of the field a reference is bound to. -/
def Field.maxLengthVia (a : Arena) (via : FieldRef → Nat) : Field → Nat
  | .mk _ (.int i) => i.length
  | .mk _ (.float x) => x.type.length
  | .mk _ (.enum e) => e.length
  | .mk _ (.set s) => s.length
  | .mk _ (.bitfield _ length _) => length
  | .mk _ (.bundle members _) => maxOfMembers a via members
  | .mk _ (.variant members _ _) => greatestOfMembers a via members
  | .mk _ (.string s) => maxBytes a via s.length s.lengthPrefix
  | .mk _ (.data d) => maxBytes a via d.length d.lengthPrefix
  | .mk _ (.list (.inline e) count c l el fixed) =>
    maxOfList count (e.maxLengthVia a via) (maxOfPrefix a via c) (maxOfPrefix a via l)
      (maxOfPrefix a via el) (c.map a.prefixLimit) (l.map a.prefixLimit) fixed
  | .mk _ (.list (.reference r) count c l el fixed) =>
    maxOfList count (via r) (maxOfPrefix a via c) (maxOfPrefix a via l) (maxOfPrefix a via el)
      (c.map a.prefixLimit) (l.map a.prefixLimit) fixed
  | .mk _ (.ref target _) => via target
  | .mk _ (.optional o) => via o.field

/-- The sum of the greatest lengths. -/
def maxOfMembers (a : Arena) (via : FieldRef → Nat) : List Field → Nat
  | [] => 0
  | f :: fs => addLengths (f.maxLengthVia a via) (maxOfMembers a via fs)

/-- The greatest of the greatest lengths. -/
def greatestOfMembers (a : Arena) (via : FieldRef → Nat) : List Field → Nat
  | [] => 0
  | f :: fs => max (f.maxLengthVia a via) (greatestOfMembers a via fs)

/-- The greatest length of a prefix; one that is not there has no bytes here. -/
def maxOfPrefix (a : Arena) (via : FieldRef → Nat) : Option Prefix → Nat
  | none => 0
  | some (.inline f) => f.maxLengthVia a via
  | some (.named p) => p.lengthVia via

end

namespace Arena

/-- The least length of a field, going through at most `hops` references in a row. -/
def minLengthWithin (a : Arena) : Nat → Field → Nat
  | 0, f => f.minLengthVia fun _ => 0
  | hops + 1, f => f.minLengthVia fun r =>
    match a.target? r with
    | some t => a.minLengthWithin hops t
    | none => 0

/-- The greatest length of a field, going through at most `hops` references in a row. -/
def maxLengthWithin (a : Arena) : Nat → Field → Nat
  | 0, f => f.maxLengthVia a fun _ => unbounded
  | hops + 1, f => f.maxLengthVia a fun r =>
    match a.target? r with
    | some t => a.maxLengthWithin hops t
    | none => unbounded

/-- The least length of a field in bytes. -/
def minLength (a : Arena) (f : Field) : Nat := a.minLengthWithin a.size f

/-- The greatest length of a field in bytes. -/
def maxLength (a : Arena) (f : Field) : Nat := a.maxLengthWithin a.size f

/-- The bytes that a prefix adds at least; those of a sibling are counted elsewhere. -/
def prefixMin (a : Arena) (p : Prefix) : Nat := ((a.prefixField? p).map a.minLength).getD 0

/-- The bytes that a prefix adds at most. -/
def prefixMax (a : Arena) : Prefix → Nat
  | .named (.sibling _) => 0
  | p => ((a.prefixField? p).map a.maxLength).getD unbounded

/-- The least length of fields one after the other. -/
def minLengthAll (a : Arena) (fs : List Field) : Nat :=
  (fs.map a.minLength).foldl addLengths 0

/-- The greatest length of fields one after the other. -/
def maxLengthAll (a : Arena) (fs : List Field) : Nat :=
  (fs.map a.maxLength).foldl addLengths 0

end Arena

/-- The bits that a field takes in a bitfield; kinds that cannot be members there have those of
their bytes, or none. -/
def Field.bitLength (f : Field) : Nat :=
  match f.body with
  | .int i => i.bitLength
  | .enum e => e.bitLength
  | .set s => s.bitLength
  | .float x => x.type.length * 8
  | .bitfield _ length _ => length * 8
  | .ref _ bitLength => bitLength.getD 0
  | _ => 0

mutual

/-- The field, or a member at any depth, exists only from a later version on. -/
def Field.isVersionDependent : Field → Bool
  | .mk core body =>
    match body with
    | .bitfield _ _ members => core.window.since > 0 || anyVersionDependent members
    | .bundle members _ => core.window.since > 0 || anyVersionDependent members
    | .variant members _ _ => core.window.since > 0 || anyVersionDependent members
    | _ => core.window.since > 0

/-- Some of the fields is version dependent. -/
def anyVersionDependent : List Field → Bool
  | [] => false
  | f :: fs => f.isVersionDependent || anyVersionDependent fs

end

end WireSchema
