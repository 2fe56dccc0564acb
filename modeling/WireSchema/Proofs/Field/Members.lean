import WireSchema.Proofs.Field.Arena

/-! # Members that aliases lead to

A bundle or variant that is completed keeps the aliases that lead to a member in the arena that it
is completed in (`Field.aliases_complete`). What leads to a member in one arena does so in another
one that simulates it (`Arena.Simulates.leads`): whatever a reference is bound to, and whatever
member has a name, has a counterpart there. -/

namespace WireSchema

/-! ### Completing a reference -/

namespace Field

/-- The reference of a field that stands for another one. -/
def ref? (f : Field) : Option FieldRef :=
  match f.body with
  | .ref target _ => some target
  | _ => none

variable {a : Arena} {f : Field} {target : FieldRef} {bitLength : Option Nat}

theorem ref?_eq_some : f.ref? = some target ↔ ∃ bitLength, f.body = .ref target bitLength := by
  unfold ref?
  split <;> simp_all

theorem core_complete_of_ref (hbody : f.body = .ref target bitLength) :
    (f.complete a).1.core = f.core.nameAfter (a.target? target) := by
  obtain ⟨core, body⟩ := f
  change body = _ at hbody
  subst hbody
  simp only [complete, Field.core]

theorem body_of_complete_eq_ref (h : (f.complete a).1.body = .ref target bitLength) :
    f.body = .ref target bitLength := by
  obtain ⟨core, body⟩ := f
  cases body with
  | list element count c l el fixed => cases element <;> simp [complete, Field.body] at h
  | ref target' bitLength' => simpa [complete, Field.body] using h
  | _ => simp [complete, Field.body] at h

theorem core_complete_of_not_ref (hbody : ∀ target bitLength, f.body ≠ .ref target bitLength) :
    (f.complete a).1.core = f.core := by
  obtain ⟨core, body⟩ := f
  cases body with
  | list element count c l el fixed => cases element <;> simp [complete, Field.core]
  | ref target' bitLength' => exact absurd rfl (hbody target' bitLength')
  | _ => simp [complete, Field.core]

/-- A name that a field has is not changed. -/
theorem name_complete_of_ne (h : f.name ≠ "") (a : Arena) : (f.complete a).1.name = f.name := by
  by_cases hbody : ∃ target bitLength, f.body = .ref target bitLength
  · obtain ⟨target, bitLength, hbody⟩ := hbody
    rw [name, core_complete_of_ref hbody]
    cases a.target? target with
    | none => rfl
    | some t => exact if_neg (by simpa [name] using h)
  · rw [name, core_complete_of_not_ref fun target bitLength h => hbody ⟨target, bitLength, h⟩]
    rfl

end Field

/-! ### Following references -/

namespace Field

variable {a : Arena} {f g : Field} {r : FieldRef}

@[simp] theorem ref?_mapRefs (g : FieldRef → FieldRef) (f : Field) :
    (f.mapRefs g).ref? = f.ref?.map g := by
  obtain ⟨core, body⟩ := f
  cases body with
  | list element count c l el fixed => cases element <;> rfl
  | _ => rfl

@[simp] theorem ref?_complete (a : Arena) (f : Field) : (f.complete a).1.ref? = f.ref? := by
  obtain ⟨core, body⟩ := f
  cases body with
  | list element count c l el fixed => cases element <;> simp [complete, ref?, Field.body]
  | _ => simp [complete, ref?, Field.body]

theorem kind_eq_ref_iff : f.kind = .ref ↔ f.ref? ≠ none := by
  obtain ⟨core, body⟩ := f
  cases body <;> simp [kind, ref?, Field.body, Body.kind]

@[simp] theorem kind_mapRefs (g : FieldRef → FieldRef) (f : Field) :
    (f.mapRefs g).kind = f.kind := by
  obtain ⟨core, body⟩ := f
  cases body with
  | list element count c l el fixed => cases element <;> rfl
  | _ => rfl

@[simp] theorem kind_complete (a : Arena) (f : Field) : (f.complete a).1.kind = f.kind := by
  obtain ⟨core, body⟩ := f
  cases body with
  | list element count c l el fixed =>
    cases element <;> simp [complete, kind, Field.body, Body.kind]
  | _ => simp [complete, kind, Field.body, Body.kind]

/-- Binding references leaves an enumeration or set as it is. -/
theorem mapRefs_of_values (g : FieldRef → FieldRef) (h : f.kind = .enum ∨ f.kind = .set) :
    f.mapRefs g = f := by
  obtain ⟨core, body⟩ := f
  cases body with
  | enum x | set x => rfl
  | _ => simp [kind, Field.body, Body.kind] at h

theorem complete_of_values (a : Arena) (h : f.kind = .enum ∨ f.kind = .set) :
    (f.complete a).1 = f := by
  obtain ⟨core, body⟩ := f
  cases body with
  | enum x | set x => rw [complete]
  | _ => simp [kind, Field.body, Body.kind] at h

theorem mem_refs_of_ref? (h : f.ref? = some r) : r ∈ f.refs := by
  obtain ⟨bitLength, hbody⟩ := ref?_eq_some.mp h
  refine mem_refs.mpr (Or.inl ?_)
  rw [ownRefs, hbody]
  exact List.mem_singleton_self r

/-- The members of a bundle or variant that is completed are completed. -/
theorem aliasScope?_complete (a : Arena) (f : Field) :
    (f.complete a).1.aliasScope? =
      f.aliasScope?.map fun ms => ms.map fun m => (m.complete a).1 := by
  obtain ⟨core, body⟩ := f
  cases body with
  | list element count c l el fixed => cases element <;> simp [complete, aliasScope?, Field.body]
  | _ => simp [complete, aliasScope?, Field.body, completeMembers_fst]

theorem inner_of_aliasScope? {ms : List Field} (h : f.aliasScope? = some ms) : f.inner = ms := by
  obtain ⟨core, body⟩ := f
  cases body <;> simp_all [aliasScope?, inner, Field.body, Body.inner]

theorem members_of_aliasScope? {ms : List Field} (h : f.aliasScope? = some ms) :
    f.members = ms := by
  obtain ⟨core, body⟩ := f
  cases body <;> simp_all [aliasScope?, members, Field.body, Body.members]

end Field

namespace Arena

theorem resolveWithin_succ (a : Arena) (steps : Nat) (f : Field) :
    a.resolveWithin (steps + 1) f =
      match f.ref? with
      | some r => (a.target? r).bind (a.resolveWithin steps)
      | none => some f := by
  obtain ⟨core, body⟩ := f
  cases body <;> rfl

/-- A field that refers to no other one is resolved to itself. -/
theorem resolved_of_not_ref {a : Arena} {f : Field} (h : f.ref? = none) :
    a.resolved f = some f := by
  rw [resolved, resolveWithin_succ, h]

theorem resolveWithin_succ_of_eq_some {a : Arena} {steps : Nat} {f t : Field}
    (h : a.resolveWithin steps f = some t) : a.resolveWithin (steps + 1) f = some t := by
  induction steps generalizing f with
  | zero => cases h
  | succ steps ih =>
    rw [resolveWithin_succ] at h ⊢
    cases href : f.ref? with
    | none =>
      rw [href] at h
      exact h
    | some r =>
      rw [href] at h
      obtain ⟨g, hg, h⟩ := Option.bind_eq_some_iff.mp h
      exact Option.bind_eq_some_iff.mpr ⟨g, hg, ih h⟩

/-- What a reference is resolved to, its target is resolved to. -/
theorem resolved_target {a : Arena} {f t : Field} {r : FieldRef} (href : f.ref? = some r)
    (h : a.resolved f = some t) : (a.target? r).bind a.resolved = some t := by
  rw [resolved, resolveWithin_succ, href] at h
  obtain ⟨g, hg, h⟩ := Option.bind_eq_some_iff.mp h
  exact Option.bind_eq_some_iff.mpr ⟨g, hg, resolveWithin_succ_of_eq_some h⟩

/-- The members that aliases of a field can name decide where its paths lead. -/
theorem memberAt?_congr {a : Arena} {f g : Field} (hf : f.ref? = none) (hg : g.ref? = none)
    (h : f.aliasScope? = g.aliasScope?) (path : List String) :
    a.memberAt? path f = a.memberAt? path g := by
  cases path with
  | nil => rfl
  | cons segment rest =>
    rw [memberAt?, memberAt?, resolved_of_not_ref hf, resolved_of_not_ref hg, Option.bind_some,
      Option.bind_some, h]

end Arena

/-! ### Aliases that are kept -/

theorem keepAliases_fst {a : Arena} {f g : Field} (hf : f.ref? = none) (hg : g.ref? = none)
    (h : f.aliasScope? = g.aliasScope?) (aliases : List Alias) :
    (keepAliases a f aliases).1 = aliases.filter (·.leads a g) := by
  refine List.filter_congr fun other _ => ?_
  rw [Alias.leads, Alias.leads, Arena.aliasTarget?, Arena.aliasTarget?,
    Arena.memberAt?_congr hf hg h]

/-- **A field that is completed keeps the aliases that lead to a member** of the completed field. -/
theorem Field.aliases_complete (a : Arena) (f : Field) :
    (f.complete a).1.aliases = f.aliases.filter (·.leads a (f.complete a).1) := by
  obtain ⟨core, body⟩ := f
  cases body with
  | list element count c l el fixed =>
    cases element <;> simp [complete, aliases, Field.body, Body.aliases]
  | bundle members as =>
    rw [complete]
    refine keepAliases_fst ?_ ?_ ?_ as <;> rfl
  | variant members default as =>
    rw [complete]
    refine keepAliases_fst ?_ ?_ ?_ as <;> rfl
  | _ => simp [complete, aliases, Field.body, Body.aliases]

@[simp] theorem Field.aliases_mapRefs (g : FieldRef → FieldRef) (f : Field) :
    (f.mapRefs g).aliases = f.aliases := by
  obtain ⟨core, body⟩ := f
  cases body with
  | list element count c l el fixed => cases element <;> rfl
  | _ => rfl

/-! ### Simulation -/

namespace Arena

variable {R : Field → Field → Prop} {a b : Arena} {x y x' m : Field}

/-- Whatever is found from a field of `a`, its counterpart is found in `b`. A blank field, from
which nothing is found, needs no counterpart. -/
structure Simulates (R : Field → Field → Prop) (a b : Arena) : Prop where
  size : a.size = b.size
  ref : ∀ {x y}, R x y → y.ref? = x.ref?
  target : ∀ {x y r x'}, R x y → x.ref? = some r → a.target? r = some x' →
    x' = .blank ∨ ∃ y', b.target? r = some y' ∧ R x' y'
  member : ∀ {x y ms segment m}, R x y → x.aliasScope? = some ms → segment ≠ "" →
    ms.find? (·.name == segment) = some m →
    ∃ ms' m', y.aliasScope? = some ms' ∧ ms'.find? (·.name == segment) = some m' ∧ R m m'

theorem resolveWithin_blank {steps : Nat} (h : a.resolveWithin steps .blank = some x) :
    x = .blank := by
  cases steps with
  | zero => simp [resolveWithin] at h
  | succ steps => exact (Option.some.inj h).symm

theorem Simulates.resolveWithin (hsim : Simulates R a b) {steps : Nat} (hxy : R x y)
    (h : a.resolveWithin steps x = some x') :
    x' = .blank ∨ ∃ y', b.resolveWithin steps y = some y' ∧ R x' y' := by
  induction steps generalizing x y with
  | zero => simp [Arena.resolveWithin] at h
  | succ steps ih =>
    rw [resolveWithin_succ] at h
    rw [resolveWithin_succ, hsim.ref hxy]
    cases href : x.ref? with
    | none =>
      rw [href] at h
      rw [← Option.some.inj h]
      exact Or.inr ⟨y, rfl, hxy⟩
    | some r =>
      rw [href] at h
      obtain ⟨z, hz, h⟩ := Option.bind_eq_some_iff.mp h
      rcases hsim.target hxy href hz with rfl | ⟨w, hw, hzw⟩
      · exact Or.inl (resolveWithin_blank h)
      · dsimp only
        rw [hw, Option.bind_some]
        exact ih hzw h

/-- **Where a path leads in one arena, it leads in one that simulates it.** -/
theorem Simulates.memberAt? (hsim : Simulates R a b) {path : List String} (hpath : "" ∉ path)
    (hxy : R x y) (h : a.memberAt? path x = some m) :
    ∃ m', b.memberAt? path y = some m' ∧ R m m' := by
  induction path generalizing x y with
  | nil => simp [Arena.memberAt?] at h
  | cons segment rest ih =>
    rw [List.mem_cons, not_or] at hpath
    rw [Arena.memberAt?] at h
    obtain ⟨ms, hms, h⟩ := Option.bind_eq_some_iff.mp h
    obtain ⟨z, hz, hms⟩ := Option.bind_eq_some_iff.mp hms
    obtain ⟨k, hk, h⟩ := Option.bind_eq_some_iff.mp h
    rcases hsim.resolveWithin hxy hz with rfl | ⟨w, hw, hzw⟩
    · -- a blank field has no members
      cases hms
      simp at hk
    · obtain ⟨ms', k', hms', hk', hkk'⟩ := hsim.member hzw hms (Ne.symm hpath.1) hk
      rw [Arena.memberAt?, resolved, ← hsim.size, hw, Option.bind_some, hms', Option.bind_some, hk',
        Option.bind_some]
      split_ifs at h ⊢
      · exact ⟨k', rfl, Option.some.inj h ▸ hkk'⟩
      · exact ih hpath.2 hkk' h

theorem Simulates.leads (hsim : Simulates R a b) {other : Alias}
    (hpath : "" ∉ Literal.segments other.fieldPath) (hxy : R x y) (h : other.leads a x = true) :
    other.leads b y = true := by
  obtain ⟨m, hm⟩ := Option.isSome_iff_exists.mp h
  obtain ⟨m', hm', -⟩ := hsim.memberAt? hpath hxy hm
  exact Option.isSome_iff_exists.mpr ⟨m', hm'⟩

end Arena

end WireSchema
