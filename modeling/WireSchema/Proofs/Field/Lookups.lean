import WireSchema.Proofs.Cycle.Cut
import WireSchema.Proofs.Field.Members

/-! # Places that are looked up

`Field.lookups` are the places of the arena that are looked up while a field is completed: the
targets of references that take their names from them, and whatever the paths of aliases come
through. Nothing else of the arena matters, besides its size (`Field.complete_eq_of_agreesOn`), and
each of these places is one that the references of the field lead to
(`Field.reaches_of_mem_lookups`). -/

namespace WireSchema

open Relation

namespace Arena

/-- The places that are looked up while at most `steps` references are followed. -/
def resolveLookups (a : Arena) : Nat → Field → List FieldId
  | 0, _ => []
  | steps + 1, f =>
    match f.ref? with
    | none => []
    | some r => r.target.toList ++ ((a.target? r).map (a.resolveLookups steps)).getD []

/-- The member with the name, of the field that `f` is resolved to. -/
def memberNamed? (a : Arena) (f : Field) (name : String) : Option Field :=
  ((a.resolved f).bind Field.aliasScope?).bind fun members => members.find? (·.name == name)

/-- The places that are looked up while names are followed from the field. -/
def memberLookups (a : Arena) : List String → Field → List FieldId
  | [], _ => []
  | segment :: rest, f =>
    a.resolveLookups (a.size + 1) f ++
      ((a.memberNamed? f segment).map (a.memberLookups rest)).getD []

end Arena

/-- The places that are looked up for the aliases of the field. -/
def aliasLookups (a : Arena) (f : Field) (aliases : List Alias) : List FieldId :=
  aliases.flatMap fun other => a.memberLookups (Literal.segments other.fieldPath) f

mutual

/-- The places that are looked up while the field is completed. -/
def Field.lookups (a : Arena) : Field → List FieldId
  | .mk _ (.ref target _) => target.target.toList
  | .mk _ (.bitfield _ _ members) => lookupsOfMembers a members
  | .mk core (.bundle members aliases) =>
    lookupsOfMembers a members ++
      aliasLookups a (.mk core (.bundle (completeMembers a members).1 aliases)) aliases
  | .mk core (.variant members default aliases) =>
    lookupsOfMembers a members ++
      aliasLookups a (.mk core (.variant (completeMembers a members).1 default aliases)) aliases
  | .mk _ (.list (.inline e) _ c l el _) =>
    e.lookups a ++ (lookupsOfPrefix a c ++ (lookupsOfPrefix a l ++ lookupsOfPrefix a el))
  | .mk _ (.list (.reference _) _ c l el _) =>
    lookupsOfPrefix a c ++ (lookupsOfPrefix a l ++ lookupsOfPrefix a el)
  | .mk _ (.int _) => []
  | .mk _ (.float _) => []
  | .mk _ (.enum _) => []
  | .mk _ (.set _) => []
  | .mk _ (.string _) => []
  | .mk _ (.data _) => []
  | .mk _ (.optional _) => []

/-- The places that are looked up while the fields are completed. -/
def lookupsOfMembers (a : Arena) : List Field → List FieldId
  | [] => []
  | f :: fs => f.lookups a ++ lookupsOfMembers a fs

/-- The places that are looked up while a field inside of a prefix is completed. -/
def lookupsOfPrefix (a : Arena) : Option Prefix → List FieldId
  | none => []
  | some (.inline f) => f.lookups a
  | some (.named _) => []

end

/-! ### What does not matter -/

/-- Both arenas have the same number of places, and the same fields at these. -/
structure Arena.AgreesOn (a b : Arena) (places : List FieldId) : Prop where
  size : b.size = a.size
  get : ∀ i ∈ places, b.get? i = a.get? i

namespace Arena

variable {a b : Arena} {f : Field} {places places' : List FieldId}

theorem AgreesOn.mono (h : a.AgreesOn b places) (hsub : places' ⊆ places) :
    a.AgreesOn b places' :=
  ⟨h.size, fun i hi => h.get i (hsub hi)⟩

theorem AgreesOn.left (h : a.AgreesOn b (places ++ places')) : a.AgreesOn b places :=
  h.mono (List.subset_append_left _ _)

theorem AgreesOn.right (h : a.AgreesOn b (places ++ places')) : a.AgreesOn b places' :=
  h.mono (List.subset_append_right _ _)

theorem AgreesOn.target?_eq {r : FieldRef} (h : a.AgreesOn b r.target.toList) :
    b.target? r = a.target? r := by
  unfold target?
  cases hr : r.target with
  | none => rfl
  | some i => exact h.get i (by simp [hr])

theorem AgreesOn.resolveWithin_eq {steps : Nat} (h : a.AgreesOn b (a.resolveLookups steps f)) :
    b.resolveWithin steps f = a.resolveWithin steps f := by
  induction steps generalizing f with
  | zero => rfl
  | succ steps ih =>
    rw [resolveWithin_succ, resolveWithin_succ]
    unfold resolveLookups at h
    cases hr : f.ref? with
    | none => rfl
    | some r =>
      simp only [hr] at h ⊢
      rw [h.left.target?_eq]
      cases ht : a.target? r with
      | none => rfl
      | some t =>
        rw [ht] at h
        exact ih h.right

theorem AgreesOn.resolved_eq (h : a.AgreesOn b (a.resolveLookups (a.size + 1) f)) :
    b.resolved f = a.resolved f := by
  rw [resolved, resolved, h.size]
  exact h.resolveWithin_eq

theorem memberAt?_cons (a : Arena) (segment : String) (rest : List String) (f : Field) :
    a.memberAt? (segment :: rest) f =
      (a.memberNamed? f segment).bind fun m =>
        if rest.isEmpty then some m else a.memberAt? rest m := by
  rw [memberAt?, memberNamed?]
  simp only [Option.bind_assoc]

theorem AgreesOn.memberAt?_eq {path : List String} (h : a.AgreesOn b (a.memberLookups path f)) :
    b.memberAt? path f = a.memberAt? path f := by
  induction path generalizing f with
  | nil => rfl
  | cons segment rest ih =>
    have hnamed : b.memberNamed? f segment = a.memberNamed? f segment := by
      rw [memberNamed?, memberNamed?, h.left.resolved_eq]
    rw [memberAt?_cons, memberAt?_cons, hnamed]
    cases hm : a.memberNamed? f segment with
    | none => rfl
    | some m =>
      have hrest := h.right
      rw [hm] at hrest
      rw [Option.bind_some, Option.bind_some, ih hrest]

end Arena

section agrees
variable {a b : Arena} {f : Field}

theorem keepAliases_eq_of_agreesOn {aliases : List Alias}
    (h : a.AgreesOn b (aliasLookups a f aliases)) :
    keepAliases b f aliases = keepAliases a f aliases := by
  have hleads : ∀ other ∈ aliases, other.leads b f = other.leads a f := by
    intro other hother
    have hsub : a.AgreesOn b (a.memberLookups (Literal.segments other.fieldPath) f) :=
      h.mono fun i hi => List.mem_flatMap.mpr ⟨other, hother, hi⟩
    rw [Alias.leads, Alias.leads, Arena.aliasTarget?, Arena.aliasTarget?, hsub.memberAt?_eq]
  unfold keepAliases
  rw [List.filter_congr hleads, List.filter_congr fun other ho => congrArg _ (hleads other ho)]

theorem completeMembers_eq_of_agreesOn {fs : List Field}
    (ih : ∀ f ∈ fs, a.AgreesOn b (f.lookups a) → f.complete b = f.complete a)
    (h : a.AgreesOn b (lookupsOfMembers a fs)) : completeMembers b fs = completeMembers a fs := by
  induction fs with
  | nil => rfl
  | cons f fs ihfs =>
    rw [lookupsOfMembers] at h
    rw [completeMembers, completeMembers, ih f List.mem_cons_self h.left,
      ihfs (fun g hg => ih g (List.mem_cons_of_mem _ hg)) h.right]

theorem completePrefix_eq_of_agreesOn {p : Option Prefix}
    (ih : ∀ f ∈ prefixInner p, a.AgreesOn b (f.lookups a) → f.complete b = f.complete a)
    (h : a.AgreesOn b (lookupsOfPrefix a p)) : completePrefix b p = completePrefix a p := by
  rcases p with _ | p
  · rfl
  · cases p with
    | inline f =>
      rw [lookupsOfPrefix] at h
      rw [completePrefix, completePrefix, ih f List.mem_cons_self h]
    | named p => rfl

/-- **Only what is looked up matters** for how a field is completed. -/
theorem Field.complete_eq_of_agreesOn (h : a.AgreesOn b (f.lookups a)) :
    f.complete b = f.complete a := by
  induction f using Field.nested_induction with
  | step f ih =>
    obtain ⟨core, body⟩ := f
    change ∀ g ∈ body.inner, _ at ih
    cases body with
    | ref target bitLength =>
      rw [lookups] at h
      rw [complete, complete, h.target?_eq]
    | bitfield endian length members =>
      rw [lookups] at h
      have hm : completeMembers b members = _ := completeMembers_eq_of_agreesOn ih h
      rw [complete, complete, hm]
    | bundle members aliases =>
      rw [lookups] at h
      have hm : completeMembers b members = _ := completeMembers_eq_of_agreesOn ih h.left
      rw [complete, complete, hm, keepAliases_eq_of_agreesOn h.right]
    | variant members default aliases =>
      rw [lookups] at h
      have hm : completeMembers b members = _ := completeMembers_eq_of_agreesOn ih h.left
      rw [complete, complete, hm, keepAliases_eq_of_agreesOn h.right]
    | list element count c l el fixed =>
      simp only [Body.inner, List.mem_append] at ih
      have hc := completePrefix_eq_of_agreesOn (a := a) (b := b) fun f hf =>
        ih f (Or.inr (Or.inl hf))
      have hl := completePrefix_eq_of_agreesOn (a := a) (b := b) fun f hf =>
        ih f (Or.inr (Or.inr (Or.inl hf)))
      have hel := completePrefix_eq_of_agreesOn (a := a) (b := b) fun f hf =>
        ih f (Or.inr (Or.inr (Or.inr hf)))
      cases element with
      | inline e =>
        rw [lookups] at h
        have he := ih e (Or.inl List.mem_cons_self) h.left
        rw [complete, complete, he, hc h.right.left, hl h.right.right.left,
          hel h.right.right.right]
      | reference r =>
        rw [lookups] at h
        rw [complete, complete, hc h.left, hl h.right.left, hel h.right.right]
    | int | float | enum | set | string | data | optional => rfl

end agrees

/-! ### Where lookups lead -/

namespace Arena

variable {a : Arena} {f g t : Field} {j : FieldId}

/-- The references of the field lead to the place. -/
def Reaches (a : Arena) (f : Field) (j : FieldId) : Prop :=
  ∃ r ∈ f.refs, ∃ k, r.target = some k ∧ ReflTransGen a.Edge k j

theorem Reaches.mono (h : a.Reaches g j) (hsub : g.refs ⊆ f.refs) : a.Reaches f j := by
  obtain ⟨r, hr, k, hk, hpath⟩ := h
  exact ⟨r, hsub hr, k, hk, hpath⟩

theorem Reaches.of_target {r : FieldRef} (h : a.Reaches t j) (hr : r ∈ f.refs)
    (ht : a.target? r = some t) : a.Reaches f j := by
  obtain ⟨k, hk, ht⟩ := Option.bind_eq_some_iff.mp ht
  obtain ⟨r', hr', k', hk', hpath⟩ := h
  exact ⟨r, hr, k, hk, .head ⟨t, r', ht, Field.mem_refs_iff_holds.mp hr', hk'⟩ hpath⟩

theorem reaches_of_mem_target {r : FieldRef} (hr : r ∈ f.refs) (h : j ∈ r.target.toList) :
    a.Reaches f j :=
  ⟨r, hr, j, Option.mem_toList.mp h, .refl⟩

theorem reaches_of_mem_resolveLookups {steps : Nat} (h : j ∈ a.resolveLookups steps f) :
    a.Reaches f j := by
  induction steps generalizing f with
  | zero => exact absurd h List.not_mem_nil
  | succ steps ih =>
    unfold resolveLookups at h
    cases hr : f.ref? with
    | none =>
      rw [hr] at h
      exact absurd h List.not_mem_nil
    | some r =>
      rw [hr] at h
      have hmem := Field.mem_refs_of_ref? hr
      rcases List.mem_append.mp h with h | h
      · exact reaches_of_mem_target hmem h
      · cases ht : a.target? r with
        | none =>
          rw [ht] at h
          exact absurd h List.not_mem_nil
        | some t =>
          rw [ht] at h
          exact (ih h).of_target hmem ht

/-- What the field that `f` is resolved to leads to, `f` leads to. -/
theorem Reaches.of_resolved {steps : Nat} (h : a.Reaches t j)
    (ht : a.resolveWithin steps f = some t) : a.Reaches f j := by
  induction steps generalizing f with
  | zero => cases ht
  | succ steps ih =>
    rw [resolveWithin_succ] at ht
    cases hr : f.ref? with
    | none =>
      rw [hr] at ht
      exact Option.some.inj ht ▸ h
    | some r =>
      rw [hr] at ht
      obtain ⟨g, hg, ht⟩ := Option.bind_eq_some_iff.mp ht
      exact (ih ht).of_target (Field.mem_refs_of_ref? hr) hg

theorem Reaches.of_memberNamed? {m : Field} {name : String} (h : a.Reaches m j)
    (hm : a.memberNamed? f name = some m) : a.Reaches f j := by
  obtain ⟨ms, hms, hm⟩ := Option.bind_eq_some_iff.mp hm
  obtain ⟨t, ht, hms⟩ := Option.bind_eq_some_iff.mp hms
  have hinner : m ∈ t.inner := Field.inner_of_aliasScope? hms ▸ List.mem_of_find?_eq_some hm
  have ht' : a.Reaches t j := h.mono fun r hr => Field.mem_refs.mpr (Or.inr ⟨m, hinner, hr⟩)
  exact ht'.of_resolved ht

theorem reaches_of_mem_memberLookups {path : List String} (h : j ∈ a.memberLookups path f) :
    a.Reaches f j := by
  induction path generalizing f with
  | nil => exact absurd h List.not_mem_nil
  | cons segment rest ih =>
    rcases List.mem_append.mp h with h | h
    · exact reaches_of_mem_resolveLookups h
    · cases hm : a.memberNamed? f segment with
      | none =>
        rw [hm] at h
        exact absurd h List.not_mem_nil
      | some m =>
        rw [hm] at h
        exact (ih h).of_memberNamed? hm

end Arena

section reaches
variable {a : Arena} {f : Field} {j : FieldId}

theorem reaches_of_mem_aliasLookups {aliases : List Alias} (h : j ∈ aliasLookups a f aliases) :
    a.Reaches f j := by
  obtain ⟨other, -, h⟩ := List.mem_flatMap.mp h
  exact Arena.reaches_of_mem_memberLookups h

theorem exists_of_mem_lookupsOfMembers {fs : List Field} (h : j ∈ lookupsOfMembers a fs) :
    ∃ f ∈ fs, j ∈ f.lookups a := by
  induction fs with
  | nil => exact absurd h List.not_mem_nil
  | cons f fs ih =>
    rw [lookupsOfMembers] at h
    rcases List.mem_append.mp h with h | h
    · exact ⟨f, List.mem_cons_self, h⟩
    · obtain ⟨g, hg, h⟩ := ih h
      exact ⟨g, List.mem_cons_of_mem _ hg, h⟩

theorem exists_of_mem_lookupsOfPrefix {p : Option Prefix} (h : j ∈ lookupsOfPrefix a p) :
    ∃ f ∈ prefixInner p, j ∈ f.lookups a := by
  rcases p with _ | p
  · exact absurd h List.not_mem_nil
  · cases p with
    | inline f => exact ⟨f, List.mem_cons_self, h⟩
    | named p => exact absurd h List.not_mem_nil

/-- What is looked up is looked up for a field inside, or for the field itself. -/
theorem Field.lookups_cases (h : j ∈ f.lookups a) :
    (∃ g ∈ f.inner, j ∈ g.lookups a) ∨ ∃ g : Field, g.refs = f.refs ∧ a.Reaches g j := by
  obtain ⟨core, body⟩ := f
  cases body with
  | ref target bitLength =>
    rw [lookups] at h
    exact Or.inr ⟨_, rfl, Arena.reaches_of_mem_target List.mem_cons_self h⟩
  | bitfield endian length members =>
    rw [lookups] at h
    exact Or.inl (exists_of_mem_lookupsOfMembers h)
  | bundle members aliases =>
    rw [lookups] at h
    rcases List.mem_append.mp h with h | h
    · exact Or.inl (exists_of_mem_lookupsOfMembers h)
    · refine Or.inr ⟨_, ?_, reaches_of_mem_aliasLookups h⟩
      rw [refs, refs]
      exact memberRefs_completeMembers fun f _ => refs_complete a f
  | variant members default aliases =>
    rw [lookups] at h
    rcases List.mem_append.mp h with h | h
    · exact Or.inl (exists_of_mem_lookupsOfMembers h)
    · refine Or.inr ⟨_, ?_, reaches_of_mem_aliasLookups h⟩
      rw [refs, refs]
      exact memberRefs_completeMembers fun f _ => refs_complete a f
  | list element count c l el fixed =>
    have hprefixes (h : j ∈ lookupsOfPrefix a c ++ (lookupsOfPrefix a l ++ lookupsOfPrefix a el)) :
        ∃ g ∈ prefixInner c ++ (prefixInner l ++ prefixInner el), j ∈ g.lookups a := by
      simp only [List.mem_append] at h ⊢
      rcases h with h | h | h
      · obtain ⟨g, hg, h⟩ := exists_of_mem_lookupsOfPrefix h
        exact ⟨g, Or.inl hg, h⟩
      · obtain ⟨g, hg, h⟩ := exists_of_mem_lookupsOfPrefix h
        exact ⟨g, Or.inr (Or.inl hg), h⟩
      · obtain ⟨g, hg, h⟩ := exists_of_mem_lookupsOfPrefix h
        exact ⟨g, Or.inr (Or.inr hg), h⟩
    cases element with
    | inline e =>
      rw [lookups] at h
      rcases List.mem_append.mp h with h | h
      · exact Or.inl ⟨e, List.mem_cons_self, h⟩
      · obtain ⟨g, hg, h⟩ := hprefixes h
        exact Or.inl ⟨g, List.mem_cons_of_mem _ hg, h⟩
    | reference r =>
      rw [lookups] at h
      exact Or.inl (hprefixes h)
  | int | float | enum | set | string | data | optional =>
    rw [lookups] at h
    exact absurd h List.not_mem_nil

/-- **What is looked up is what the references lead to.** -/
theorem Field.reaches_of_mem_lookups (h : j ∈ f.lookups a) : a.Reaches f j := by
  induction f using Field.nested_induction with
  | step f ih =>
    rcases lookups_cases h with ⟨g, hg, h⟩ | ⟨g, hrefs, h⟩
    · exact (ih g hg h).mono fun r hr => mem_refs.mpr (Or.inr ⟨g, hg, hr⟩)
    · exact h.mono fun r hr => hrefs ▸ hr

end reaches

end WireSchema
