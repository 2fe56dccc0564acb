import Mathlib.Data.List.Forall2
import Mathlib.Data.Option.Basic
import WireSchema.Proofs.Field.Nesting

/-! # Going through the references of a field

A step that keeps a state, such as a journal of findings, sees the references of a field one after
the other and puts something in their places (`Field.traverseRefs`). It sees the references that
`Field.refs` lists, in this order, and the field that is left differs in nothing else
(`Field.SameButRefs`). Two fields that only differ in their references and list the same ones are
equal (`Field.determined`), so that this says all about the traversal
(`Field.traversal`); `Field.mapRefs` is the traversal by a step without a state. -/

namespace WireSchema

/-! ### Steps with a state -/

section steps
variable {σ α β : Type} {step : FieldRef → StateM σ FieldRef} {s s' : σ}

theorem run_bind_eq_iff {m : StateM σ α} {k : α → StateM σ β} {b : β} :
    (m >>= k).run s = (b, s') ↔ ∃ a t, m.run s = (a, t) ∧ (k a).run t = (b, s') := by
  constructor
  · intro h
    exact ⟨_, _, rfl, h⟩
  · rintro ⟨a, t, hm, hk⟩
    rw [StateT.run_bind, hm]
    exact hk

theorem run_pure_eq_iff {a b : α} :
    (pure a : StateM σ α).run s = (b, s') ↔ a = b ∧ s = s' := by
  rw [StateT.run_pure]
  exact Prod.mk.injEq a s b s' ▸ Iff.rfl

/-- Taken in order, the step changes the references `rs` to `rs'` and the state `s` to `s'`. -/
def Steps (step : FieldRef → StateM σ FieldRef) (s : σ) (rs rs' : List FieldRef) (s' : σ) : Prop :=
  (rs.mapM step).run s = (rs', s')

theorem steps_nil : Steps step s [] [] s := by
  rw [Steps, List.mapM_nil, run_pure_eq_iff]
  exact ⟨rfl, rfl⟩

theorem Steps.cons {r r' : FieldRef} {rs rs' : List FieldRef} {t : σ}
    (hr : (step r).run s = (r', t)) (hrs : Steps step t rs rs' s') :
    Steps step s (r :: rs) (r' :: rs') s' := by
  rw [Steps, List.mapM_cons, run_bind_eq_iff]
  refine ⟨r', t, hr, ?_⟩
  rw [run_bind_eq_iff]
  exact ⟨rs', s', hrs, run_pure_eq_iff.mpr ⟨rfl, rfl⟩⟩

theorem Steps.append {xs xs' ys ys' : List FieldRef} {t : σ} (hx : Steps step s xs xs' t)
    (hy : Steps step t ys ys' s') : Steps step s (xs ++ ys) (xs' ++ ys') s' := by
  rw [Steps, List.mapM_append, run_bind_eq_iff]
  refine ⟨xs', t, hx, ?_⟩
  rw [run_bind_eq_iff]
  exact ⟨ys', s', hy, run_pure_eq_iff.mpr ⟨rfl, rfl⟩⟩

end steps

/-! ### The traversal -/

section traversal
variable {σ : Type} (step : FieldRef → StateM σ FieldRef)

/-- The named prefix, with what the step makes of its reference. -/
def PrefixName.traverseRefs : PrefixName → StateM σ PrefixName
  | .path ref => return .path (← step ref)
  | .sibling name => return .sibling name

/-- The named prefix, if there is one, with what the step makes of its reference. -/
def traverseNamed : Option PrefixName → StateM σ (Option PrefixName)
  | none => return none
  | some p => return some (← p.traverseRefs step)

mutual

/-- The field, with what the step makes of its references. The element of a list comes before its
prefixes. -/
def Field.traverseRefs : Field → StateM σ Field
  | .mk core (.int f) => return .mk core (.int f)
  | .mk core (.float f) => return .mk core (.float f)
  | .mk core (.enum f) => return .mk core (.enum f)
  | .mk core (.set f) => return .mk core (.set f)
  | .mk core (.bitfield endian length members) =>
    return .mk core (.bitfield endian length (← traverseMembers members))
  | .mk core (.bundle members aliases) =>
    return .mk core (.bundle (← traverseMembers members) aliases)
  | .mk core (.variant members default aliases) =>
    return .mk core (.variant (← traverseMembers members) default aliases)
  | .mk core (.string f) => do
    let lengthPrefix ← traverseNamed step f.lengthPrefix
    return .mk core (.string { f with lengthPrefix })
  | .mk core (.data f) => do
    let lengthPrefix ← traverseNamed step f.lengthPrefix
    return .mk core (.data { f with lengthPrefix })
  | .mk core (.list element count c l el fixed) => do
    let element ← element.traverseRefs
    let c ← traversePrefix c
    let l ← traversePrefix l
    let el ← traversePrefix el
    return .mk core (.list element count c l el fixed)
  | .mk core (.ref target bitLength) => return .mk core (.ref (← step target) bitLength)
  | .mk core (.optional f) => do
    let field ← step f.field
    return .mk core (.optional { f with field })

/-- The fields, with what the step makes of their references. -/
def traverseMembers : List Field → StateM σ (List Field)
  | [] => return []
  | f :: fs => do
    let f ← f.traverseRefs
    let fs ← traverseMembers fs
    return f :: fs

/-- The part, with what the step makes of its references. -/
def Part.traverseRefs : Part → StateM σ Part
  | .inline f => return .inline (← f.traverseRefs)
  | .reference r => return .reference (← step r)

/-- The prefix of a list, with what the step makes of its references. -/
def traversePrefix : Option Prefix → StateM σ (Option Prefix)
  | none => return none
  | some (.inline f) => return some (.inline (← f.traverseRefs))
  | some (.named p) => return some (.named (← p.traverseRefs step))

end

theorem traverseMembers_eq_mapM (fs : List Field) :
    traverseMembers step fs = fs.mapM (Field.traverseRefs step) := by
  induction fs with
  | nil => rw [traverseMembers, List.mapM_nil]
  | cons f fs ih => rw [traverseMembers, List.mapM_cons, ih]

end traversal

/-! ### Fields that are the same but for their references -/

/-- Both name a field by its path, or both name the same sibling. -/
inductive PrefixName.SameButRefs : PrefixName → PrefixName → Prop
  | path (r r' : FieldRef) : SameButRefs (.path r) (.path r')
  | sibling (name : String) : SameButRefs (.sibling name) (.sibling name)

/-- Both are fields in the relation, or both are references. -/
inductive Part.SameBut (R : Field → Field → Prop) : Part → Part → Prop
  | inline {f f' : Field} (h : R f f') : SameBut R (.inline f) (.inline f')
  | reference (r r' : FieldRef) : SameBut R (.reference r) (.reference r')

/-- Both are fields in the relation, or both name the same but for a reference. -/
inductive Prefix.SameBut (R : Field → Field → Prop) : Prefix → Prefix → Prop
  | inline {f f' : Field} (h : R f f') : SameBut R (.inline f) (.inline f')
  | named {p p' : PrefixName} (h : p.SameButRefs p') : SameBut R (.named p) (.named p')

/-- The fields only differ in the references that stand in them, at any depth. -/
inductive Field.SameButRefs : Field → Field → Prop
  | int (core : FieldCore) (f : IntField) : SameButRefs (.mk core (.int f)) (.mk core (.int f))
  | float (core : FieldCore) (f : FloatField) :
    SameButRefs (.mk core (.float f)) (.mk core (.float f))
  | enum (core : FieldCore) (f : EnumField) : SameButRefs (.mk core (.enum f)) (.mk core (.enum f))
  | set (core : FieldCore) (f : SetField) : SameButRefs (.mk core (.set f)) (.mk core (.set f))
  | bitfield (core : FieldCore) (endian : Endian) (length : Nat) {ms ms' : List Field}
    (h : List.Forall₂ SameButRefs ms ms') :
    SameButRefs (.mk core (.bitfield endian length ms)) (.mk core (.bitfield endian length ms'))
  | bundle (core : FieldCore) (aliases : List Alias) {ms ms' : List Field}
    (h : List.Forall₂ SameButRefs ms ms') :
    SameButRefs (.mk core (.bundle ms aliases)) (.mk core (.bundle ms' aliases))
  | variant (core : FieldCore) (default : Option Nat) (aliases : List Alias) {ms ms' : List Field}
    (h : List.Forall₂ SameButRefs ms ms') :
    SameButRefs (.mk core (.variant ms default aliases)) (.mk core (.variant ms' default aliases))
  | string (core : FieldCore) (f : StringField) {p : Option PrefixName}
    (h : Option.Rel PrefixName.SameButRefs f.lengthPrefix p) :
    SameButRefs (.mk core (.string f)) (.mk core (.string { f with lengthPrefix := p }))
  | data (core : FieldCore) (f : DataField) {p : Option PrefixName}
    (h : Option.Rel PrefixName.SameButRefs f.lengthPrefix p) :
    SameButRefs (.mk core (.data f)) (.mk core (.data { f with lengthPrefix := p }))
  | list (core : FieldCore) (count : Option Nat) (fixed : Bool) {e e' : Part}
    {c c' l l' el el' : Option Prefix} (he : Part.SameBut SameButRefs e e')
    (hc : Option.Rel (Prefix.SameBut SameButRefs) c c')
    (hl : Option.Rel (Prefix.SameBut SameButRefs) l l')
    (hel : Option.Rel (Prefix.SameBut SameButRefs) el el') :
    SameButRefs (.mk core (.list e count c l el fixed)) (.mk core (.list e' count c' l' el' fixed))
  | ref (core : FieldCore) (bitLength : Option Nat) (r r' : FieldRef) :
    SameButRefs (.mk core (.ref r bitLength)) (.mk core (.ref r' bitLength))
  | optional (core : FieldCore) (f : OptionalField) (r : FieldRef) :
    SameButRefs (.mk core (.optional f)) (.mk core (.optional { f with field := r }))

/-! ### What the references determine -/

/-- Of what is the same as `x` but for references, the list of these references tells which one it
is, also where it is followed by others. -/
def Determined {α : Type} (refs : α → List FieldRef) (Same : α → α → Prop) (x : α) : Prop :=
  ∀ ⦃y z : α⦄ ⦃t u : List FieldRef⦄, Same x y → Same x z → refs y ++ t = refs z ++ u →
    y = z ∧ t = u

theorem determined_forall₂ {α : Type} {refs : α → List FieldRef} {Same : α → α → Prop}
    {xs : List α} (h : ∀ x ∈ xs, Determined refs Same x) :
    Determined (List.flatMap refs) (List.Forall₂ Same) xs := by
  induction xs with
  | nil =>
    rintro _ _ t u ⟨⟩ ⟨⟩ htu
    exact ⟨rfl, htu⟩
  | cons x xs ih =>
    rintro _ _ t u (_ | ⟨hy, hys⟩) (_ | ⟨hz, hzs⟩) htu
    rw [List.flatMap_cons, List.flatMap_cons, List.append_assoc, List.append_assoc] at htu
    obtain ⟨rfl, htl⟩ := h x List.mem_cons_self hy hz htu
    obtain ⟨rfl, rfl⟩ := ih (fun x hx => h x (List.mem_cons_of_mem _ hx)) hys hzs htl
    exact ⟨rfl, rfl⟩

theorem determined_prefixName (p : PrefixName) :
    Determined PrefixName.refs PrefixName.SameButRefs p := by
  rintro _ _ t u hy hz htu
  cases hy with
  | path r ry =>
    cases hz with
    | path _ rz =>
      obtain ⟨rfl, rfl⟩ := List.cons.inj htu
      exact ⟨rfl, rfl⟩
  | sibling name =>
    cases hz
    exact ⟨rfl, htu⟩

theorem determined_named (p : Option PrefixName) :
    Determined namedRefs (Option.Rel PrefixName.SameButRefs) p := by
  rintro _ _ t u hy hz htu
  cases hy with
  | none =>
    cases hz
    exact ⟨rfl, htu⟩
  | some hy =>
    cases hz with
    | some hz =>
      obtain ⟨rfl, rfl⟩ := determined_prefixName _ hy hz htu
      exact ⟨rfl, rfl⟩

theorem determined_part {R : Field → Field → Prop} {p : Part}
    (h : ∀ f ∈ p.inner, Determined Field.refs R f) :
    Determined Part.refs (Part.SameBut R) p := by
  rintro _ _ t u hy hz htu
  cases hy with
  | inline hy =>
    cases hz with
    | inline hz =>
      obtain ⟨rfl, rfl⟩ := h _ List.mem_cons_self hy hz htu
      exact ⟨rfl, rfl⟩
  | reference r ry =>
    cases hz with
    | reference _ rz =>
      obtain ⟨rfl, rfl⟩ := List.cons.inj htu
      exact ⟨rfl, rfl⟩

theorem determined_prefix {R : Field → Field → Prop} {p : Option Prefix}
    (h : ∀ f ∈ prefixInner p, Determined Field.refs R f) :
    Determined prefixRefs (Option.Rel (Prefix.SameBut R)) p := by
  rintro _ _ t u hy hz htu
  cases hy with
  | none =>
    cases hz
    exact ⟨rfl, htu⟩
  | some hy =>
    cases hz with
    | some hz =>
      cases hy with
      | inline hy =>
        cases hz with
        | inline hz =>
          obtain ⟨rfl, rfl⟩ := h _ List.mem_cons_self hy hz htu
          exact ⟨rfl, rfl⟩
      | named hy =>
        cases hz with
        | named hz =>
          obtain ⟨rfl, rfl⟩ := determined_prefixName _ hy hz htu
          exact ⟨rfl, rfl⟩

theorem refs_list (core : FieldCore) (e : Part) (count : Option Nat) (c l el : Option Prefix)
    (fixed : Bool) : Field.refs (.mk core (.list e count c l el fixed)) =
      e.refs ++ (prefixRefs c ++ (prefixRefs l ++ prefixRefs el)) := by
  cases e <;> simp only [Field.refs, Part.refs, List.cons_append, List.nil_append]

theorem determined_members {fs : List Field}
    (h : ∀ f ∈ fs, Determined Field.refs Field.SameButRefs f) :
    Determined memberRefs (List.Forall₂ Field.SameButRefs) fs := by
  have heq : memberRefs = List.flatMap Field.refs := funext memberRefs_eq_flatMap
  exact heq ▸ determined_forall₂ h

theorem Field.determined (f : Field) : Determined Field.refs Field.SameButRefs f := by
  induction f using nested_induction with
  | step f ih =>
    rintro _ _ t u hy hz htu
    cases hy with
    | int | float | enum | set => cases hz; exact ⟨rfl, htu⟩
    | bitfield core endian length hy =>
      cases hz with
      | bitfield _ _ _ hz =>
        obtain ⟨rfl, rfl⟩ := determined_members ih hy hz (by simpa only [refs] using htu)
        exact ⟨rfl, rfl⟩
    | bundle core aliases hy =>
      cases hz with
      | bundle _ _ hz =>
        obtain ⟨rfl, rfl⟩ := determined_members ih hy hz (by simpa only [refs] using htu)
        exact ⟨rfl, rfl⟩
    | variant core default aliases hy =>
      cases hz with
      | variant _ _ _ hz =>
        obtain ⟨rfl, rfl⟩ := determined_members ih hy hz (by simpa only [refs] using htu)
        exact ⟨rfl, rfl⟩
    | string core f hy =>
      cases hz with
      | string _ _ hz =>
        obtain ⟨rfl, rfl⟩ := determined_named _ hy hz (by simpa only [refs] using htu)
        exact ⟨rfl, rfl⟩
    | data core f hy =>
      cases hz with
      | data _ _ hz =>
        obtain ⟨rfl, rfl⟩ := determined_named _ hy hz (by simpa only [refs] using htu)
        exact ⟨rfl, rfl⟩
    | list core count fixed hye hyc hyl hyel =>
      cases hz with
      | list _ _ _ hze hzc hzl hzel =>
        change ∀ f ∈ _ ++ (_ ++ (_ ++ _)), _ at ih
        simp only [List.mem_append] at ih
        simp only [refs_list, List.append_assoc] at htu
        obtain ⟨rfl, hc⟩ := determined_part (fun f hf => ih f (Or.inl hf)) hye hze htu
        obtain ⟨rfl, hl⟩ := determined_prefix (fun f hf => ih f (Or.inr (Or.inl hf))) hyc hzc hc
        obtain ⟨rfl, hel⟩ :=
          determined_prefix (fun f hf => ih f (Or.inr (Or.inr (Or.inl hf)))) hyl hzl hl
        obtain ⟨rfl, rfl⟩ :=
          determined_prefix (fun f hf => ih f (Or.inr (Or.inr (Or.inr hf)))) hyel hzel hel
        exact ⟨rfl, rfl⟩
    | ref core bitLength r ry =>
      cases hz with
      | ref _ _ _ rz =>
        obtain ⟨rfl, rfl⟩ := List.cons.inj htu
        exact ⟨rfl, rfl⟩
    | optional core f ry =>
      cases hz with
      | optional _ _ rz =>
        obtain ⟨rfl, rfl⟩ := List.cons.inj htu
        exact ⟨rfl, rfl⟩

/-! ### What the step sees -/

section follows
variable {σ α : Type} {step : FieldRef → StateM σ FieldRef}

/-- The traversal of `x` gives the step the references of `x` in order, and leaves what is the same
but for references and has those that the step gave back. -/
def Follows (refs : α → List FieldRef) (Same : α → α → Prop) (step : FieldRef → StateM σ FieldRef)
    (traverse : α → StateM σ α) (x : α) : Prop :=
  ∀ ⦃s s' : σ⦄ ⦃x' : α⦄, (traverse x).run s = (x', s') →
    Same x x' ∧ Steps step s (refs x) (refs x') s'

theorem follows_forall₂ {refs : α → List FieldRef} {Same : α → α → Prop}
    {traverse : α → StateM σ α} {xs : List α} (h : ∀ x ∈ xs, Follows refs Same step traverse x) :
    Follows (List.flatMap refs) (List.Forall₂ Same) step (List.mapM traverse) xs := by
  induction xs with
  | nil =>
    intro s s' xs' hxs
    rw [List.mapM_nil] at hxs
    obtain ⟨rfl, rfl⟩ := run_pure_eq_iff.mp hxs
    exact ⟨.nil, steps_nil⟩
  | cons x xs ih =>
    intro s s' xs' hxs
    rw [List.mapM_cons] at hxs
    obtain ⟨x', t, hx, hxs⟩ := run_bind_eq_iff.mp hxs
    obtain ⟨ys, u, hys, hxs⟩ := run_bind_eq_iff.mp hxs
    obtain ⟨rfl, rfl⟩ := run_pure_eq_iff.mp hxs
    obtain ⟨hsame, hsteps⟩ := h x List.mem_cons_self hx
    obtain ⟨hsames, hrest⟩ := ih (fun x hx => h x (List.mem_cons_of_mem _ hx)) hys
    exact ⟨.cons hsame hsames, hsteps.append hrest⟩

theorem follows_prefixName (p : PrefixName) :
    Follows PrefixName.refs PrefixName.SameButRefs step (PrefixName.traverseRefs step) p := by
  intro s s' p' h
  cases p with
  | path r =>
    obtain ⟨r', t, hr, h⟩ := run_bind_eq_iff.mp h
    obtain ⟨rfl, rfl⟩ := run_pure_eq_iff.mp h
    exact ⟨.path r r', .cons hr steps_nil⟩
  | sibling name =>
    obtain ⟨rfl, rfl⟩ := run_pure_eq_iff.mp h
    exact ⟨.sibling name, steps_nil⟩

theorem follows_named (p : Option PrefixName) :
    Follows namedRefs (Option.Rel PrefixName.SameButRefs) step (traverseNamed step) p := by
  intro s s' p' h
  cases p with
  | none =>
    obtain ⟨rfl, rfl⟩ := run_pure_eq_iff.mp h
    exact ⟨.none, steps_nil⟩
  | some p =>
    obtain ⟨q, t, hq, h⟩ := run_bind_eq_iff.mp h
    obtain ⟨rfl, rfl⟩ := run_pure_eq_iff.mp h
    obtain ⟨hsame, hsteps⟩ := follows_prefixName p hq
    exact ⟨.some hsame, hsteps⟩

/-- What holds of the traversal of a field. -/
def FollowsField (step : FieldRef → StateM σ FieldRef) (f : Field) : Prop :=
  Follows Field.refs Field.SameButRefs step (Field.traverseRefs step) f

theorem follows_members {fs : List Field} (h : ∀ f ∈ fs, FollowsField step f) :
    Follows memberRefs (List.Forall₂ Field.SameButRefs) step (traverseMembers step) fs := by
  have hrefs : memberRefs = List.flatMap Field.refs := funext memberRefs_eq_flatMap
  have htraverse : traverseMembers step = List.mapM (Field.traverseRefs step) :=
    funext (traverseMembers_eq_mapM step)
  rw [hrefs, htraverse]
  exact follows_forall₂ h

theorem follows_part {p : Part} (h : ∀ f ∈ p.inner, FollowsField step f) :
    Follows Part.refs (Part.SameBut Field.SameButRefs) step (Part.traverseRefs step) p := by
  intro s s' p' hp
  cases p with
  | inline f =>
    obtain ⟨f', t, hf, hp⟩ := run_bind_eq_iff.mp hp
    obtain ⟨rfl, rfl⟩ := run_pure_eq_iff.mp hp
    obtain ⟨hsame, hsteps⟩ := h f List.mem_cons_self hf
    exact ⟨.inline hsame, hsteps⟩
  | reference r =>
    obtain ⟨r', t, hr, hp⟩ := run_bind_eq_iff.mp hp
    obtain ⟨rfl, rfl⟩ := run_pure_eq_iff.mp hp
    exact ⟨.reference r r', .cons hr steps_nil⟩

theorem follows_prefix {p : Option Prefix} (h : ∀ f ∈ prefixInner p, FollowsField step f) :
    Follows prefixRefs (Option.Rel (Prefix.SameBut Field.SameButRefs)) step (traversePrefix step)
      p := by
  intro s s' p' hp
  rcases p with _ | p
  · obtain ⟨rfl, rfl⟩ := run_pure_eq_iff.mp hp
    exact ⟨.none, steps_nil⟩
  · cases p with
    | inline f =>
      obtain ⟨f', t, hf, hp⟩ := run_bind_eq_iff.mp hp
      obtain ⟨rfl, rfl⟩ := run_pure_eq_iff.mp hp
      obtain ⟨hsame, hsteps⟩ := h f List.mem_cons_self hf
      exact ⟨.some (.inline hsame), hsteps⟩
    | named q =>
      obtain ⟨q', t, hq, hp⟩ := run_bind_eq_iff.mp hp
      obtain ⟨rfl, rfl⟩ := run_pure_eq_iff.mp hp
      obtain ⟨hsame, hsteps⟩ := follows_prefixName q hq
      exact ⟨.some (.named hsame), hsteps⟩

theorem followsField (f : Field) : FollowsField step f := by
  induction f using Field.nested_induction with
  | step f ih =>
    intro s s' f' h
    obtain ⟨core, body⟩ := f
    cases body with
    | int f => obtain ⟨rfl, rfl⟩ := run_pure_eq_iff.mp h; exact ⟨.int core f, steps_nil⟩
    | float f => obtain ⟨rfl, rfl⟩ := run_pure_eq_iff.mp h; exact ⟨.float core f, steps_nil⟩
    | enum f => obtain ⟨rfl, rfl⟩ := run_pure_eq_iff.mp h; exact ⟨.enum core f, steps_nil⟩
    | set f => obtain ⟨rfl, rfl⟩ := run_pure_eq_iff.mp h; exact ⟨.set core f, steps_nil⟩
    | bitfield endian length members =>
      obtain ⟨ms, t, hms, h⟩ := run_bind_eq_iff.mp h
      obtain ⟨rfl, rfl⟩ := run_pure_eq_iff.mp h
      obtain ⟨hsame, hsteps⟩ := follows_members ih hms
      exact ⟨.bitfield core endian length hsame, hsteps⟩
    | bundle members aliases =>
      obtain ⟨ms, t, hms, h⟩ := run_bind_eq_iff.mp h
      obtain ⟨rfl, rfl⟩ := run_pure_eq_iff.mp h
      obtain ⟨hsame, hsteps⟩ := follows_members ih hms
      exact ⟨.bundle core aliases hsame, hsteps⟩
    | variant members default aliases =>
      obtain ⟨ms, t, hms, h⟩ := run_bind_eq_iff.mp h
      obtain ⟨rfl, rfl⟩ := run_pure_eq_iff.mp h
      obtain ⟨hsame, hsteps⟩ := follows_members ih hms
      exact ⟨.variant core default aliases hsame, hsteps⟩
    | string f =>
      obtain ⟨p, t, hp, h⟩ := run_bind_eq_iff.mp h
      obtain ⟨rfl, rfl⟩ := run_pure_eq_iff.mp h
      obtain ⟨hsame, hsteps⟩ := follows_named _ hp
      exact ⟨.string core f hsame, hsteps⟩
    | data f =>
      obtain ⟨p, t, hp, h⟩ := run_bind_eq_iff.mp h
      obtain ⟨rfl, rfl⟩ := run_pure_eq_iff.mp h
      obtain ⟨hsame, hsteps⟩ := follows_named _ hp
      exact ⟨.data core f hsame, hsteps⟩
    | list element count c l el fixed =>
      change ∀ f ∈ _ ++ (_ ++ (_ ++ _)), _ at ih
      simp only [List.mem_append] at ih
      obtain ⟨element', t₁, he, h⟩ := run_bind_eq_iff.mp h
      obtain ⟨c', t₂, hc, h⟩ := run_bind_eq_iff.mp h
      obtain ⟨l', t₃, hl, h⟩ := run_bind_eq_iff.mp h
      obtain ⟨el', t₄, hel, h⟩ := run_bind_eq_iff.mp h
      obtain ⟨rfl, rfl⟩ := run_pure_eq_iff.mp h
      obtain ⟨hsame, hsteps⟩ := follows_part (fun f hf => ih f (Or.inl hf)) he
      obtain ⟨hcsame, hcsteps⟩ := follows_prefix (fun f hf => ih f (Or.inr (Or.inl hf))) hc
      obtain ⟨hlsame, hlsteps⟩ :=
        follows_prefix (fun f hf => ih f (Or.inr (Or.inr (Or.inl hf)))) hl
      obtain ⟨helsame, helsteps⟩ :=
        follows_prefix (fun f hf => ih f (Or.inr (Or.inr (Or.inr hf)))) hel
      refine ⟨.list core count fixed hsame hcsame hlsame helsame, ?_⟩
      rw [refs_list, refs_list]
      exact hsteps.append (hcsteps.append (hlsteps.append helsteps))
    | ref target bitLength =>
      obtain ⟨r, t, hr, h⟩ := run_bind_eq_iff.mp h
      obtain ⟨rfl, rfl⟩ := run_pure_eq_iff.mp h
      exact ⟨.ref core bitLength target r, .cons hr steps_nil⟩
    | optional f =>
      obtain ⟨r, t, hr, h⟩ := run_bind_eq_iff.mp h
      obtain ⟨rfl, rfl⟩ := run_pure_eq_iff.mp h
      exact ⟨.optional core f r, .cons hr steps_nil⟩

end follows

/-! ### Steps without a state -/

section stateless
variable {σ : Type} {g : FieldRef → FieldRef}

/-- The step that changes a reference and keeps no state. -/
def stateless (σ : Type) (g : FieldRef → FieldRef) (r : FieldRef) : StateM σ FieldRef := pure (g r)

theorem traverseRefs_stateless_prefixName (p : PrefixName) :
    p.traverseRefs (stateless σ g) = pure (p.mapRefs g) := by
  cases p <;> rfl

theorem traverseNamed_stateless (p : Option PrefixName) :
    traverseNamed (stateless σ g) p = pure (p.map (·.mapRefs g)) := by
  cases p with
  | none => rfl
  | some p =>
    rw [traverseNamed, traverseRefs_stateless_prefixName, pure_bind]
    rfl

/-- What holds of the traversal of a field by a step without a state. -/
def MapsField (σ : Type) (g : FieldRef → FieldRef) (f : Field) : Prop :=
  f.traverseRefs (stateless σ g) = pure (f.mapRefs g)

theorem mapM_stateless {α : Type} {traverse : α → StateM σ α} {map : α → α} {xs : List α}
    (h : ∀ x ∈ xs, traverse x = pure (map x)) : xs.mapM traverse = pure (xs.map map) := by
  induction xs with
  | nil => rfl
  | cons x xs ih =>
    rw [List.mapM_cons, h x List.mem_cons_self, pure_bind,
      ih fun x hx => h x (List.mem_cons_of_mem _ hx), pure_bind, List.map_cons]

theorem traverseMembers_stateless {fs : List Field} (h : ∀ f ∈ fs, MapsField σ g f) :
    traverseMembers (stateless σ g) fs = pure (mapMemberRefs g fs) := by
  rw [traverseMembers_eq_mapM, mapMemberRefs_eq_map]
  exact mapM_stateless h

theorem traversePrefix_stateless {p : Option Prefix} (h : ∀ f ∈ prefixInner p, MapsField σ g f) :
    traversePrefix (stateless σ g) p = pure (mapPrefixRefs g p) := by
  rcases p with _ | p
  · rfl
  · cases p with
    | inline f => rw [traversePrefix, h f List.mem_cons_self, pure_bind, mapPrefixRefs]
    | named p => rw [traversePrefix, traverseRefs_stateless_prefixName, pure_bind, mapPrefixRefs]

theorem traverseRefs_stateless_part {p : Part} (h : ∀ f ∈ p.inner, MapsField σ g f) :
    p.traverseRefs (stateless σ g) = pure (p.mapRefs g) := by
  cases p with
  | inline f =>
    rw [Part.traverseRefs, h f List.mem_cons_self, pure_bind]
    rfl
  | reference r => rfl

theorem mapRefs_list (core : FieldCore) (e : Part) (count : Option Nat) (c l el : Option Prefix)
    (fixed : Bool) : Field.mapRefs g (.mk core (.list e count c l el fixed)) =
      .mk core (.list (e.mapRefs g) count (mapPrefixRefs g c) (mapPrefixRefs g l)
        (mapPrefixRefs g el) fixed) := by
  cases e <;> simp only [Field.mapRefs, Part.mapRefs]

/-- **A traversal by a step without a state changes the references.** -/
theorem Field.traverseRefs_stateless (f : Field) : MapsField σ g f := by
  induction f using nested_induction with
  | step f ih =>
    obtain ⟨core, body⟩ := f
    cases body with
    | int | float | enum | set => rfl
    | bitfield endian length members =>
      have hms : traverseMembers (stateless σ g) members = _ := traverseMembers_stateless ih
      rw [MapsField, traverseRefs, hms, pure_bind, mapRefs]
    | bundle members aliases =>
      have hms : traverseMembers (stateless σ g) members = _ := traverseMembers_stateless ih
      rw [MapsField, traverseRefs, hms, pure_bind, mapRefs]
    | variant members default aliases =>
      have hms : traverseMembers (stateless σ g) members = _ := traverseMembers_stateless ih
      rw [MapsField, traverseRefs, hms, pure_bind, mapRefs]
    | string f => rw [MapsField, traverseRefs, traverseNamed_stateless, pure_bind, mapRefs]
    | data f => rw [MapsField, traverseRefs, traverseNamed_stateless, pure_bind, mapRefs]
    | list element count c l el fixed =>
      change ∀ f ∈ _ ++ (_ ++ (_ ++ _)), _ at ih
      simp only [List.mem_append] at ih
      rw [MapsField, traverseRefs, mapRefs_list,
        traverseRefs_stateless_part fun f hf => ih f (Or.inl hf), pure_bind,
        traversePrefix_stateless fun f hf => ih f (Or.inr (Or.inl hf)), pure_bind,
        traversePrefix_stateless fun f hf => ih f (Or.inr (Or.inr (Or.inl hf))), pure_bind,
        traversePrefix_stateless fun f hf => ih f (Or.inr (Or.inr (Or.inr hf))), pure_bind]
    | ref | optional => rfl

end stateless

/-! ### The whole of a traversal -/

/-- The step that changes a reference and notes the one that it was given. -/
def noting (g : FieldRef → FieldRef) (r : FieldRef) : StateM (List FieldRef) FieldRef := do
  modify (· ++ [r])
  return g r

theorem steps_stateless_iff {σ : Type} {g : FieldRef → FieldRef} {s s' : σ}
    {rs rs' : List FieldRef} :
    Steps (stateless σ g) s rs rs' s' ↔ rs.map g = rs' ∧ s = s' := by
  have h : rs.mapM (stateless σ g) = pure (rs.map g) := List.mapM_pure
  rw [Steps, h, run_pure_eq_iff]

theorem steps_noting (g : FieldRef → FieldRef) (seen rs : List FieldRef) :
    Steps (noting g) seen rs (rs.map g) (seen ++ rs) := by
  induction rs generalizing seen with
  | nil => rw [List.append_nil]; exact steps_nil
  | cons r rs ih =>
    rw [List.map_cons, ← List.singleton_append, ← List.append_assoc]
    exact .cons rfl (ih (seen ++ [r]))

/-- Collecting the references of `α`, changing them, and going through them with a step that keeps a
state are three views of one order. -/
structure Traversal {α : Type} (refs : α → List FieldRef)
    (mapRefs : (FieldRef → FieldRef) → α → α)
    (traverse : ∀ {σ : Type}, (FieldRef → StateM σ FieldRef) → α → StateM σ α)
    (Same : α → α → Prop) : Prop where
  /-- The step sees the references in the order in which they are collected, and what is left has
  those that the step gave back and is the same in all else. -/
  run_iff {σ : Type} (step : FieldRef → StateM σ FieldRef) (x x' : α) (s s' : σ) :
    (traverse step x).run s = (x', s') ↔ Same x x' ∧ Steps step s (refs x) (refs x') s'
  /-- The references after a change are those before it, changed one by one, and nothing else is
  changed. -/
  mapRefs_iff (g : FieldRef → FieldRef) (x x' : α) :
    mapRefs g x = x' ↔ Same x x' ∧ refs x' = (refs x).map g
  /-- A step that notes what it is given notes the references in the order in which they are
  collected. -/
  run_noting (g : FieldRef → FieldRef) (seen : List FieldRef) (x : α) :
    (traverse (noting g) x).run seen = (mapRefs g x, seen ++ refs x)

theorem Traversal.of_follows {α : Type} {refs : α → List FieldRef}
    {mapRefs : (FieldRef → FieldRef) → α → α}
    {traverse : ∀ {σ : Type}, (FieldRef → StateM σ FieldRef) → α → StateM σ α}
    {Same : α → α → Prop}
    (follows : ∀ {σ : Type} (step : FieldRef → StateM σ FieldRef) (x : α),
      Follows refs Same step (traverse step) x)
    (determined : ∀ x, Determined refs Same x)
    (stateless : ∀ (g : FieldRef → FieldRef) (x : α),
      traverse (stateless Unit g) x = pure (mapRefs g x)) :
    Traversal refs mapRefs traverse Same := by
  have hrun : ∀ {σ : Type} (step : FieldRef → StateM σ FieldRef) (x x' : α) (s s' : σ),
      (traverse step x).run s = (x', s') ↔ Same x x' ∧ Steps step s (refs x) (refs x') s' := by
    intro σ step x x' s s'
    refine ⟨fun h => follows step x h, fun ⟨hsame, hsteps⟩ => ?_⟩
    rcases hy : (traverse step x).run s with ⟨y, t⟩
    obtain ⟨hsame', hsteps'⟩ := follows step x hy
    obtain ⟨hrefs, rfl⟩ := Prod.mk.inj (hsteps.symm.trans hsteps')
    obtain ⟨rfl, -⟩ := determined x hsame hsame' (congrArg (· ++ []) hrefs)
    rfl
  have hmap : ∀ (g : FieldRef → FieldRef) (x x' : α),
      mapRefs g x = x' ↔ Same x x' ∧ refs x' = (refs x).map g := by
    intro g x x'
    have h := hrun (WireSchema.stateless Unit g) x x' () ()
    rw [stateless, run_pure_eq_iff, steps_stateless_iff] at h
    simpa only [and_true, eq_comm] using h
  refine ⟨hrun, hmap, fun g seen x => ?_⟩
  obtain ⟨hsame, hrefs⟩ := (hmap g x _).mp rfl
  rw [hrun, hrefs]
  exact ⟨hsame, steps_noting g seen (refs x)⟩

/-- **Going through the references of a field**, of whatever kind and depth. -/
theorem Field.traversal :
    Traversal Field.refs Field.mapRefs Field.traverseRefs Field.SameButRefs :=
  .of_follows (fun _ f => followsField f) determined fun _ f => traverseRefs_stateless f

theorem traversal_members : Traversal memberRefs mapMemberRefs traverseMembers
    (List.Forall₂ Field.SameButRefs) :=
  .of_follows (fun _ _ => follows_members fun f _ => followsField f)
    (fun _ => determined_members fun f _ => f.determined)
    fun _ _ => traverseMembers_stateless fun f _ => f.traverseRefs_stateless

end WireSchema
