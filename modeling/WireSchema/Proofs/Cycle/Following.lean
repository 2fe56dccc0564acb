import WireSchema.Field.Length
import WireSchema.Proofs.Cycle.Rank

/-! # Following references

A field asks for the fields inside of it and for those its references are bound to. In an arena
without cycles this comes to an end (`acc_asks`). So the bounds on the number of references in a row
are never met: the least and the greatest length are what the recursion without a bound gives
(`minLength_eq`, `maxLength_eq`), and a field is not resolved only if following references leads to
one that is bound to no field (`resolved_eq_none_iff`). -/

namespace WireSchema

open Relation

namespace Arena

variable {a : Arena} {f g t : Field} {k m n : Nat}

/-- What is done with `f` is also done with `g`: it is declared inside of `f`, or a reference of `f`
is bound to it. -/
def Asks (a : Arena) (f g : Field) : Prop :=
  g ∈ f.inner ∨ ∃ r ∈ f.ownRefs, a.target? r = some g

/-- **Asking comes to an end** where there is no cycle. -/
theorem acc_asks (h : a.Acyclic) (f : Field) : Acc (fun g f => a.Asks f g) f := by
  have hbelow (k : Nat) : ∀ f, a.Below k f → Acc (fun g f => a.Asks f g) f := by
    -- over references the rank falls, inside of a field it stays
    induction k using Nat.strong_induction_on with
    | _ k ih =>
      intro f hf
      induction f using Field.nested_induction with
      | step f ihf =>
        refine Acc.intro f fun g hg => ?_
        rcases hg with hg | ⟨r, hr, ht⟩
        · exact ihf g hg (hf.inner hg)
        · obtain ⟨m, hm, hg⟩ := hf.target h (Field.mem_refs.mpr (Or.inl hr)) ht
          exact ih m hm g hg
  exact hbelow a.size f (below_size h f)

/-! ### Bounded recursions -/

/-- What `step` says of the field, from the values of the fields that its references are bound to.
It goes through at most `hops` references in a row, and takes `base` for those it does not
follow. -/
def follow (a : Arena) (step : (FieldRef → Nat) → Field → Nat) (base : Nat) : Nat → Field → Nat
  | 0, f => step (fun _ => base) f
  | hops + 1, f => step (fun r => ((a.target? r).map (a.follow step base hops)).getD base) f

section follow
variable {step : (FieldRef → Nat) → Field → Nat} {base : Nat}

/-- The step looks only at the references in the field. -/
def Local (step : (FieldRef → Nat) → Field → Nat) : Prop :=
  ∀ via via' f, (∀ r ∈ f.refs, via r = via' r) → step via f = step via' f

/-- More references in a row than the rank allows make no difference. -/
theorem follow_eq_of_le (hac : a.Acyclic) (hstep : Local step) (hf : a.Below k f) (hm : k ≤ m)
    (hn : k ≤ n) : a.follow step base m f = a.follow step base n f := by
  induction k using Nat.strong_induction_on generalizing f m n with
  | _ k ih =>
    cases m with
    | zero =>
      rw [Nat.le_zero.mp hm] at hf
      cases n with
      | zero => rfl
      | succ n => exact hstep _ _ f fun r hr => by rw [hf.target?_eq_none hr]; rfl
    | succ m =>
      cases n with
      | zero =>
        rw [Nat.le_zero.mp hn] at hf
        exact hstep _ _ f fun r hr => by rw [hf.target?_eq_none hr]; rfl
      | succ n =>
        refine hstep _ _ f fun r hr => ?_
        cases ht : a.target? r with
        | none => rfl
        | some t =>
          obtain ⟨l, hl, ht⟩ := hf.target hac hr ht
          exact ih l hl ht (by omega) (by omega)

/-- **Where there is no cycle, the bounded recursion is the one without a bound.** -/
theorem follow_size_eq (hac : a.Acyclic) (hstep : Local step) (f : Field) :
    a.follow step base a.size f =
      step (fun r => ((a.target? r).map (a.follow step base a.size)).getD base) f :=
  follow_eq_of_le hac hstep (below_size hac f) le_rfl (Nat.le_succ _)

end follow

end Arena

/-! ### Lengths look only at the references in the field -/

section lengths
variable {a : Arena} {via via' : FieldRef → Nat} {fs : List Field}

theorem PrefixName.lengthVia_congr {p : PrefixName} (h : ∀ r ∈ p.refs, via r = via' r) :
    p.lengthVia via = p.lengthVia via' := by
  cases p with
  | path r => exact h r (by simp [PrefixName.refs])
  | sibling name => rfl

theorem minBytes_congr {length : Option Nat} {source : Option PrefixName} {suffix : Nat}
    (h : ∀ r ∈ namedRefs source, via r = via' r) :
    minBytes via length source suffix = minBytes via' length source suffix := by
  unfold minBytes
  cases length with
  | some n => rfl
  | none =>
    cases source with
    | none => rfl
    | some p => exact PrefixName.lengthVia_congr h

theorem maxBytes_congr {length : Option Nat} {source : Option PrefixName}
    (h : ∀ r ∈ namedRefs source, via r = via' r) :
    maxBytes a via length source = maxBytes a via' length source := by
  unfold maxBytes
  cases length with
  | some n => rfl
  | none =>
    cases source with
    | none => rfl
    | some p => exact congrArg (fun n => addLengths n _) (PrefixName.lengthVia_congr h)

theorem minOfMembers_congr (h : ∀ f ∈ fs, f.minLengthVia via = f.minLengthVia via') :
    minOfMembers via fs = minOfMembers via' fs := by
  induction fs with
  | nil => simp [minOfMembers]
  | cons f fs ih =>
    rw [minOfMembers, minOfMembers, h f List.mem_cons_self,
      ih fun g hg => h g (List.mem_cons_of_mem _ hg)]

theorem leastOfMembers_congr (h : ∀ f ∈ fs, f.minLengthVia via = f.minLengthVia via') :
    leastOfMembers via fs = leastOfMembers via' fs := by
  induction fs with
  | nil => simp [leastOfMembers]
  | cons f fs ih =>
    rw [leastOfMembers, leastOfMembers, h f List.mem_cons_self,
      ih fun g hg => h g (List.mem_cons_of_mem _ hg)]

theorem maxOfMembers_congr (h : ∀ f ∈ fs, f.maxLengthVia a via = f.maxLengthVia a via') :
    maxOfMembers a via fs = maxOfMembers a via' fs := by
  induction fs with
  | nil => simp [maxOfMembers]
  | cons f fs ih =>
    rw [maxOfMembers, maxOfMembers, h f List.mem_cons_self,
      ih fun g hg => h g (List.mem_cons_of_mem _ hg)]

theorem greatestOfMembers_congr (h : ∀ f ∈ fs, f.maxLengthVia a via = f.maxLengthVia a via') :
    greatestOfMembers a via fs = greatestOfMembers a via' fs := by
  induction fs with
  | nil => simp [greatestOfMembers]
  | cons f fs ih =>
    rw [greatestOfMembers, greatestOfMembers, h f List.mem_cons_self,
      ih fun g hg => h g (List.mem_cons_of_mem _ hg)]

theorem minOfPrefix_congr {p : Option Prefix} (hown : ∀ r ∈ prefixOwnRefs p, via r = via' r)
    (hinner : ∀ f ∈ prefixInner p, f.minLengthVia via = f.minLengthVia via') :
    minOfPrefix via p = minOfPrefix via' p := by
  rcases p with _ | p
  · simp [minOfPrefix]
  · cases p with
    | inline f =>
      simp only [minOfPrefix]
      exact hinner f (by simp [prefixInner])
    | named p =>
      simp only [minOfPrefix]
      exact PrefixName.lengthVia_congr hown

theorem maxOfPrefix_congr {p : Option Prefix} (hown : ∀ r ∈ prefixOwnRefs p, via r = via' r)
    (hinner : ∀ f ∈ prefixInner p, f.maxLengthVia a via = f.maxLengthVia a via') :
    maxOfPrefix a via p = maxOfPrefix a via' p := by
  rcases p with _ | p
  · simp [maxOfPrefix]
  · cases p with
    | inline f =>
      simp only [maxOfPrefix]
      exact hinner f (by simp [prefixInner])
    | named p =>
      simp only [maxOfPrefix]
      exact PrefixName.lengthVia_congr hown

/-- Two values of fields are the same if they are so wherever the references in a field itself and
the fields directly inside do not tell them apart. -/
theorem Field.eq_of_agree {v v' : Field → Nat}
    (step : ∀ f : Field, (∀ r ∈ f.ownRefs, via r = via' r) → (∀ g ∈ f.inner, v g = v' g) →
      v f = v' f) (f : Field) (h : ∀ r ∈ f.refs, via r = via' r) : v f = v' f := by
  induction f using nested_induction with
  | step f ih =>
    refine step f (fun r hr => h r (mem_refs.mpr (Or.inl hr))) fun g hg => ?_
    exact ih g hg fun r hr => h r (mem_refs.mpr (Or.inr ⟨g, hg, hr⟩))

theorem local_minLengthVia : Arena.Local Field.minLengthVia := by
  intro via via' f
  refine Field.eq_of_agree (fun f hown hin => ?_) f
  obtain ⟨core, body⟩ := f
  change ∀ r ∈ body.ownRefs, _ at hown
  change ∀ g ∈ body.inner, _ at hin
  cases body with
  | bundle members aliases =>
    simp only [Field.minLengthVia]
    exact minOfMembers_congr hin
  | variant members default aliases =>
    simp only [Field.minLengthVia]
    exact congrArg (fun n => n.getD 0) (leastOfMembers_congr hin)
  | string s =>
    simp only [Field.minLengthVia]
    exact minBytes_congr hown
  | data d =>
    simp only [Field.minLengthVia]
    exact minBytes_congr hown
  | ref target bitLength =>
    simp only [Field.minLengthVia]
    exact hown target (by simp [Body.ownRefs])
  | list element count c l el fixed =>
    simp only [Body.ownRefs, Body.inner, List.mem_append] at hown hin
    have hc : minOfPrefix via c = minOfPrefix via' c :=
      minOfPrefix_congr (fun r hr => hown r (by tauto)) fun g hg => hin g (by tauto)
    have hl : minOfPrefix via l = minOfPrefix via' l :=
      minOfPrefix_congr (fun r hr => hown r (by tauto)) fun g hg => hin g (by tauto)
    have hel : minOfPrefix via el = minOfPrefix via' el :=
      minOfPrefix_congr (fun r hr => hown r (by tauto)) fun g hg => hin g (by tauto)
    cases element with
    | inline e =>
      simp only [Field.minLengthVia]
      rw [hc, hl, hel, hin e (Or.inl (by simp [Part.inner]))]
    | reference r =>
      simp only [Field.minLengthVia]
      rw [hc, hl, hel, hown r (Or.inl (by simp [Part.ownRefs]))]
  | int | float | enum | set | bitfield | optional => simp only [Field.minLengthVia]

theorem local_maxLengthVia (a : Arena) : Arena.Local (Field.maxLengthVia a) := by
  intro via via' f
  refine Field.eq_of_agree (fun f hown hin => ?_) f
  obtain ⟨core, body⟩ := f
  change ∀ r ∈ body.ownRefs, _ at hown
  change ∀ g ∈ body.inner, _ at hin
  cases body with
  | bundle members aliases =>
    simp only [Field.maxLengthVia]
    exact maxOfMembers_congr hin
  | variant members default aliases =>
    simp only [Field.maxLengthVia]
    exact greatestOfMembers_congr hin
  | string s =>
    simp only [Field.maxLengthVia]
    exact maxBytes_congr hown
  | data d =>
    simp only [Field.maxLengthVia]
    exact maxBytes_congr hown
  | ref target bitLength =>
    simp only [Field.maxLengthVia]
    exact hown target (by simp [Body.ownRefs])
  | optional o =>
    simp only [Field.maxLengthVia]
    exact hown o.field (by simp [Body.ownRefs])
  | list element count c l el fixed =>
    simp only [Body.ownRefs, Body.inner, List.mem_append] at hown hin
    have hc : maxOfPrefix a via c = maxOfPrefix a via' c :=
      maxOfPrefix_congr (fun r hr => hown r (by tauto)) fun g hg => hin g (by tauto)
    have hl : maxOfPrefix a via l = maxOfPrefix a via' l :=
      maxOfPrefix_congr (fun r hr => hown r (by tauto)) fun g hg => hin g (by tauto)
    have hel : maxOfPrefix a via el = maxOfPrefix a via' el :=
      maxOfPrefix_congr (fun r hr => hown r (by tauto)) fun g hg => hin g (by tauto)
    cases element with
    | inline e =>
      simp only [Field.maxLengthVia]
      rw [hc, hl, hel, hin e (Or.inl (by simp [Part.inner]))]
    | reference r =>
      simp only [Field.maxLengthVia]
      rw [hc, hl, hel, hown r (Or.inl (by simp [Part.ownRefs]))]
  | int | float | enum | set | bitfield => simp only [Field.maxLengthVia]

end lengths

namespace Arena

variable {a : Arena} {f g t : Field} {k m n : Nat}

theorem minLengthWithin_eq_follow (a : Arena) (hops : Nat) :
    a.minLengthWithin hops = a.follow Field.minLengthVia 0 hops := by
  induction hops with
  | zero => rfl
  | succ hops ih =>
    funext f
    rw [minLengthWithin, follow, ih]
    refine congrArg (fun via => f.minLengthVia via) (funext fun r => ?_)
    cases a.target? r <;> rfl

theorem maxLengthWithin_eq_follow (a : Arena) (hops : Nat) :
    a.maxLengthWithin hops = a.follow (Field.maxLengthVia a) unbounded hops := by
  induction hops with
  | zero => rfl
  | succ hops ih =>
    funext f
    rw [maxLengthWithin, follow, ih]
    refine congrArg (fun via => f.maxLengthVia a via) (funext fun r => ?_)
    cases a.target? r <;> rfl

theorem minLength_eq_follow (a : Arena) : a.minLength = a.follow Field.minLengthVia 0 a.size :=
  a.minLengthWithin_eq_follow a.size

theorem maxLength_eq_follow (a : Arena) :
    a.maxLength = a.follow (Field.maxLengthVia a) unbounded a.size :=
  a.maxLengthWithin_eq_follow a.size

/-- **The least length is that of the recursion without a bound**, where there is no cycle. -/
theorem minLength_eq (hac : a.Acyclic) (f : Field) :
    a.minLength f = f.minLengthVia fun r => ((a.target? r).map a.minLength).getD 0 := by
  rw [minLength_eq_follow]
  exact follow_size_eq hac local_minLengthVia f

/-- **The greatest length is that of the recursion without a bound**, where there is no cycle. -/
theorem maxLength_eq (hac : a.Acyclic) (f : Field) :
    a.maxLength f = f.maxLengthVia a fun r => ((a.target? r).map a.maxLength).getD unbounded := by
  rw [maxLength_eq_follow]
  exact follow_size_eq hac (local_maxLengthVia a) f

/-! ### Resolving -/

/-- `f` is a `ref` field that is bound to `g`. -/
def Refers (a : Arena) (f g : Field) : Prop :=
  ∃ target bitLength, f.body = .ref target bitLength ∧ a.target? target = some g

/-- `f` is a `ref` field that is bound to no field. -/
def Dangling (a : Arena) (f : Field) : Prop :=
  ∃ target bitLength, f.body = .ref target bitLength ∧ a.target? target = none

theorem resolveWithin_ref {core : FieldCore} {target : FieldRef} {bitLength : Option Nat}
    (a : Arena) (steps : Nat) :
    a.resolveWithin (steps + 1) (.mk core (.ref target bitLength)) =
      (a.target? target).bind (a.resolveWithin steps) := rfl

theorem resolveWithin_of_ne_ref {core : FieldCore} {body : Body} (a : Arena) (steps : Nat)
    (h : ∀ target bitLength, body ≠ .ref target bitLength) :
    a.resolveWithin (steps + 1) (.mk core body) = some (.mk core body) := by
  rw [resolveWithin]
  exact h

/-- With more steps than the rank says, a field is left unresolved only if following references
leads to one that is not bound. -/
theorem exists_dangling_of_resolveWithin (hac : a.Acyclic) (hf : a.Below k f) (hk : k < n)
    (h : a.resolveWithin n f = none) : ∃ g, ReflTransGen a.Refers f g ∧ a.Dangling g := by
  induction k using Nat.strong_induction_on generalizing f n with
  | _ k ih =>
    obtain ⟨n, rfl⟩ := Nat.exists_eq_succ_of_ne_zero (Nat.ne_zero_of_lt hk)
    obtain ⟨core, body⟩ := f
    by_cases hb : ∃ target bitLength, body = .ref target bitLength
    · obtain ⟨target, bitLength, rfl⟩ := hb
      cases ht : a.target? target with
      | none => exact ⟨_, ReflTransGen.refl, target, bitLength, rfl, ht⟩
      | some t =>
        rw [Nat.succ_eq_add_one, resolveWithin_ref, ht, Option.bind_some] at h
        obtain ⟨m, hm, hbelow⟩ := hf.target hac (by simp [Field.refs]) ht
        obtain ⟨g, hg, hdangling⟩ := ih m hm hbelow (by omega) h
        exact ⟨g, ReflTransGen.head ⟨target, bitLength, rfl, ht⟩ hg, hdangling⟩
    · rw [Nat.succ_eq_add_one, resolveWithin_of_ne_ref a n
        fun target bitLength e => hb ⟨target, bitLength, e⟩] at h
      simp at h

theorem resolveWithin_eq_none_of_dangling (h : a.Dangling f) (steps : Nat) :
    a.resolveWithin steps f = none := by
  obtain ⟨core, body⟩ := f
  obtain ⟨target, bitLength, rfl, ht⟩ := h
  cases steps with
  | zero => rfl
  | succ steps => rw [resolveWithin_ref, ht, Option.bind_none]

theorem resolveWithin_eq_none (h : ReflTransGen a.Refers f g) (hg : a.Dangling g) (steps : Nat) :
    a.resolveWithin steps f = none := by
  induction h using ReflTransGen.head_induction_on generalizing steps with
  | refl => exact resolveWithin_eq_none_of_dangling hg steps
  | @head f f' href _ ih =>
    obtain ⟨core, body⟩ := f
    obtain ⟨target, bitLength, rfl, ht⟩ := href
    cases steps with
    | zero => rfl
    | succ steps =>
      rw [resolveWithin_ref, ht, Option.bind_some]
      exact ih steps

/-- **A field is unresolved just when following references leads to one that is not bound**, where
there is no cycle. -/
theorem resolved_eq_none_iff (hac : a.Acyclic) :
    a.resolved f = none ↔ ∃ g, ReflTransGen a.Refers f g ∧ a.Dangling g := by
  constructor
  · intro h
    exact exists_dangling_of_resolveWithin hac (below_size hac f) (Nat.lt_succ_self _) h
  · rintro ⟨g, hfg, hg⟩
    exact resolveWithin_eq_none hfg hg _

end Arena

end WireSchema
