import Mathlib.Data.ENat.Lattice
import WireSchema.Proofs.Cycle.Following

/-! # Exact lengths

The least and the greatest length of a field as natural numbers without a limit, or as infinity
where there is no bound; nothing times no bound is nothing. `Body.exactMin` and `Body.exactMax` take
the lengths of the fields inside and of those behind the references, and `Arena.exactMin` and
`Arena.exactMax` close the recursion, which ends where there is no cycle (`Arena.exactMin_eq`,
`Arena.exactMax_eq`). -/

namespace WireSchema

/-! ### Lengths of bodies -/

section body
variable (a : Arena) (value : Field → ℕ∞) (via : FieldRef → ℕ∞)

/-- The greatest number that a prefix can state, infinite if it is not known. -/
def Arena.exactLimit (p : Prefix) : ℕ∞ :=
  match ((a.prefixField? p).bind a.resolved).bind Field.int? with
  | some i => i.wireRange.hi.toNat
  | none => ⊤

/-- The bytes of a named prefix; those of a sibling are counted elsewhere. -/
def PrefixName.exact : PrefixName → ℕ∞
  | .path r => via r
  | .sibling _ => 0

/-- The bytes of a prefix; one that is not there has none. -/
def exactOfPrefix : Option Prefix → ℕ∞
  | none => 0
  | some (.inline f) => value f
  | some (.named p) => p.exact via

/-- The bytes of a part. -/
def Part.exact : Part → ℕ∞
  | .inline f => value f
  | .reference r => via r

/-- The least length of a sequence of bytes. -/
def exactMinBytes (length : Option ℕ) (source : Option PrefixName) (suffix : ℕ) : ℕ∞ :=
  match length, source with
  | some n, _ => n
  | none, some p => p.exact via
  | none, none => suffix

/-- The greatest length of a sequence of bytes. -/
def exactMaxBytes (length : Option ℕ) (source : Option PrefixName) : ℕ∞ :=
  match length, source with
  | some n, _ => n
  | none, some p => p.exact via + a.exactLimit (.named p)
  | none, none => ⊤

/-- The bytes of an element with the prefix that says its length, unless all elements share it. -/
def exactEach (fixed : Bool) (element own : ℕ∞) : ℕ∞ := if fixed then element else element + own

/-- The bytes of the prefix that all elements share. -/
def exactShared (fixed : Bool) (own : ℕ∞) : ℕ∞ := if fixed then own else 0

/-- The least length of a list. -/
def exactMinOfList (count : Option ℕ) (each shared countPrefix lengthPrefix : ℕ∞)
    (counted : Bool) : ℕ∞ :=
  match count with
  | some n => shared + n * each
  | none => if counted then countPrefix else lengthPrefix

/-- The greatest length of a list; `counted` and `sized` are the greatest numbers that the prefixes
with the count and the length can state. -/
def exactMaxOfList (count : Option ℕ) (each shared countPrefix lengthPrefix : ℕ∞)
    (counted sized : Option ℕ∞) : ℕ∞ :=
  match count, counted, sized with
  | some n, _, _ => shared + n * each
  | none, some n, _ => countPrefix + shared + n * each
  | none, none, some n => lengthPrefix + n
  | none, none, none => ⊤

/-- The exact least length of a field with such a body. -/
noncomputable def Body.exactMin : Body → ℕ∞
  | .int i => i.minLength
  | .float x => x.type.length
  | .enum e => e.length
  | .set s => s.length
  | .bitfield _ length _ => length
  | .bundle members _ => (members.map value).sum
  | .variant members _ _ => (members.map value).min?.getD 0
  | .string s => exactMinBytes via s.length s.lengthPrefix (if s.zeroTermSuffix then 1 else 0)
  | .data d => exactMinBytes via d.length d.lengthPrefix 0
  | .list element count c l el fixed =>
    let own := exactOfPrefix value via el
    exactMinOfList count (exactEach fixed (element.exact value via) own) (exactShared fixed own)
      (exactOfPrefix value via c) (exactOfPrefix value via l) c.isSome
  | .ref target _ => via target
  | .optional _ => 0

/-- The exact greatest length of a field with such a body. -/
noncomputable def Body.exactMax : Body → ℕ∞
  | .int i => i.length
  | .float x => x.type.length
  | .enum e => e.length
  | .set s => s.length
  | .bitfield _ length _ => length
  | .bundle members _ => (members.map value).sum
  | .variant members _ _ => (members.map value).foldr max 0
  | .string s => exactMaxBytes a via s.length s.lengthPrefix
  | .data d => exactMaxBytes a via d.length d.lengthPrefix
  | .list element count c l el fixed =>
    let own := exactOfPrefix value via el
    exactMaxOfList count (exactEach fixed (element.exact value via) own) (exactShared fixed own)
      (exactOfPrefix value via c) (exactOfPrefix value via l) (c.map a.exactLimit)
      (l.map a.exactLimit)
  | .ref target _ => via target
  | .optional o => via o.field

end body

/-! ### Parts and prefixes -/

section rel
variable {R : ℕ∞ → ℕ∞ → Prop} {value value' : Field → ℕ∞} {via via' : FieldRef → ℕ∞}

/-- What relates the lengths behind references relates those of prefixes, if it relates zero to
itself. -/
theorem PrefixName.exact_rel {p : PrefixName} (hzero : R 0 0)
    (h : ∀ r ∈ p.refs, R (via r) (via' r)) : R (p.exact via) (p.exact via') := by
  cases p with
  | path r => exact h r (by simp [PrefixName.refs])
  | sibling name => exact hzero

theorem exactOfPrefix_rel {p : Option Prefix} (hzero : R 0 0)
    (hown : ∀ r ∈ prefixOwnRefs p, R (via r) (via' r))
    (hinner : ∀ f ∈ prefixInner p, R (value f) (value' f)) :
    R (exactOfPrefix value via p) (exactOfPrefix value' via' p) := by
  rcases p with _ | p
  · exact hzero
  · cases p with
    | inline f => exact hinner f (by simp [prefixInner])
    | named p => exact PrefixName.exact_rel hzero hown

theorem Part.exact_rel {p : Part} (hown : ∀ r ∈ p.ownRefs, R (via r) (via' r))
    (hinner : ∀ f ∈ p.inner, R (value f) (value' f)) :
    R (p.exact value via) (p.exact value' via') := by
  cases p with
  | inline f => exact hinner f (by simp [Part.inner])
  | reference r => exact hown r (by simp [Part.ownRefs])

/-- The element of a list and its three prefixes. -/
theorem exact_rel_of_list {element : Part} {count : Option ℕ} {c l el : Option Prefix}
    {fixed : Bool} (hzero : R 0 0)
    (hown : ∀ r ∈ (Body.list element count c l el fixed).ownRefs, R (via r) (via' r))
    (hinner : ∀ f ∈ (Body.list element count c l el fixed).inner, R (value f) (value' f)) :
    R (element.exact value via) (element.exact value' via') ∧
      R (exactOfPrefix value via c) (exactOfPrefix value' via' c) ∧
      R (exactOfPrefix value via l) (exactOfPrefix value' via' l) ∧
      R (exactOfPrefix value via el) (exactOfPrefix value' via' el) := by
  simp only [Body.ownRefs, Body.inner, List.forall_mem_append] at hown hinner
  obtain ⟨hoe, hoc, hol, hoel⟩ := hown
  obtain ⟨hie, hic, hil, hiel⟩ := hinner
  exact ⟨Part.exact_rel hoe hie, exactOfPrefix_rel hzero hoc hic, exactOfPrefix_rel hzero hol hil,
    exactOfPrefix_rel hzero hoel hiel⟩

end rel

/-! ### Exact lengths look only at what the body asks for -/

section congr
variable {a : Arena} {value value' : Field → ℕ∞} {via via' : FieldRef → ℕ∞}

theorem exactMinBytes_congr {length : Option ℕ} {source : Option PrefixName} {suffix : ℕ}
    (h : ∀ r ∈ namedRefs source, via r = via' r) :
    exactMinBytes via length source suffix = exactMinBytes via' length source suffix := by
  unfold exactMinBytes
  cases length with
  | some n => rfl
  | none =>
    cases source with
    | none => rfl
    | some p => exact PrefixName.exact_rel rfl h

theorem exactMaxBytes_congr {length : Option ℕ} {source : Option PrefixName}
    (h : ∀ r ∈ namedRefs source, via r = via' r) :
    exactMaxBytes a via length source = exactMaxBytes a via' length source := by
  unfold exactMaxBytes
  cases length with
  | some n => rfl
  | none =>
    cases source with
    | none => rfl
    | some p => exact congrArg (· + _) (PrefixName.exact_rel rfl h)

theorem Body.exactMin_congr {body : Body} (hown : ∀ r ∈ body.ownRefs, via r = via' r)
    (hinner : ∀ f ∈ body.inner, value f = value' f) :
    body.exactMin value via = body.exactMin value' via' := by
  cases body with
  | bundle members aliases => exact congrArg List.sum (List.map_congr_left hinner)
  | variant members default aliases =>
    exact congrArg (fun l => l.min?.getD 0) (List.map_congr_left hinner)
  | string s => exact exactMinBytes_congr hown
  | data d => exact exactMinBytes_congr hown
  | ref target bitLength => exact hown target (by simp [Body.ownRefs])
  | list element count c l el fixed =>
    obtain ⟨he, hc, hl, hel⟩ := exact_rel_of_list rfl hown hinner
    simp only [Body.exactMin, he, hc, hl, hel]
  | int | float | enum | set | bitfield | optional => rfl

theorem Body.exactMax_congr {body : Body} (hown : ∀ r ∈ body.ownRefs, via r = via' r)
    (hinner : ∀ f ∈ body.inner, value f = value' f) :
    body.exactMax a value via = body.exactMax a value' via' := by
  cases body with
  | bundle members aliases => exact congrArg List.sum (List.map_congr_left hinner)
  | variant members default aliases =>
    exact congrArg (fun l => l.foldr max 0) (List.map_congr_left hinner)
  | string s => exact exactMaxBytes_congr hown
  | data d => exact exactMaxBytes_congr hown
  | ref target bitLength => exact hown target (by simp [Body.ownRefs])
  | optional o => exact hown o.field (by simp [Body.ownRefs])
  | list element count c l el fixed =>
    obtain ⟨he, hc, hl, hel⟩ := exact_rel_of_list rfl hown hinner
    simp only [Body.exactMax, he, hc, hl, hel]
  | int | float | enum | set | bitfield => rfl

end congr

/-! ### Lengths in an arena -/

namespace Arena

variable (a : Arena) (hac : a.Acyclic)

/-- The value of the field that a reference is bound to, `base` if it is not bound. -/
def behind (value : Field → ℕ∞) (base : ℕ∞) (r : FieldRef) : ℕ∞ :=
  ((a.target? r).map value).getD base

open Classical in
/-- What `step` says of a field from the values of the fields that it asks for. -/
noncomputable def recurse (step : (Field → ℕ∞) → Field → ℕ∞) : Field → ℕ∞ :=
  (WellFounded.intro (acc_asks hac)).fix fun f rec =>
    step (fun g => if h : a.Asks f g then rec g h else 0) f

/-- **The recursion is without a bound**, if the step looks only at what the field asks for. -/
theorem recurse_eq {step : (Field → ℕ∞) → Field → ℕ∞}
    (hstep : ∀ v v' f, (∀ g, a.Asks f g → v g = v' g) → step v f = step v' f) (f : Field) :
    a.recurse hac step f = step (a.recurse hac step) f := by
  conv_lhs => rw [recurse, WellFounded.fix_eq]
  refine hstep _ _ f fun g hg => ?_
  rw [dif_pos hg]
  rfl

/-- The exact least length of a field; a reference that is not bound has none. -/
noncomputable def exactMin : Field → ℕ∞ :=
  a.recurse hac fun value f => f.body.exactMin value (a.behind value 0)

/-- The exact greatest length of a field; a reference that is not bound has no bound. -/
noncomputable def exactMax : Field → ℕ∞ :=
  a.recurse hac fun value f => f.body.exactMax a value (a.behind value ⊤)

variable {a}

/-- What relates the values of the fields asked for relates those behind references. -/
theorem rel_behind {α β : Type} {R : α → β → Prop} {v : Field → α} {v' : Field → β} {base : α}
    {base' : β} {f : Field} {r : FieldRef} (hbase : R base base') (hr : r ∈ f.ownRefs)
    (h : ∀ g, a.Asks f g → R (v g) (v' g)) :
    R (((a.target? r).map v).getD base) (((a.target? r).map v').getD base') := by
  cases ht : a.target? r with
  | none => exact hbase
  | some t => exact h t (Or.inr ⟨r, hr, ht⟩)

/-- **The exact least length** is that of the body from those of the fields asked for. -/
theorem exactMin_eq (f : Field) :
    a.exactMin hac f = f.body.exactMin (a.exactMin hac) (a.behind (a.exactMin hac) 0) := by
  refine a.recurse_eq hac (fun v v' f h => ?_) f
  exact Body.exactMin_congr (fun r hr => rel_behind rfl hr h)
    fun g hg => h g (Or.inl hg)

/-- **The exact greatest length** is that of the body from those of the fields asked for. -/
theorem exactMax_eq (f : Field) :
    a.exactMax hac f = f.body.exactMax a (a.exactMax hac) (a.behind (a.exactMax hac) ⊤) := by
  refine a.recurse_eq hac (fun v v' f h => ?_) f
  exact Body.exactMax_congr (fun r hr => rel_behind rfl hr h)
    fun g hg => h g (Or.inl hg)

end Arena

end WireSchema
