import Mathlib.Data.List.Basic
import Mathlib.Logic.Relation
import WireSchema.Field.Completion

/-! # Fields inside fields

`Field.inner` are the fields declared directly inside of a field, `Field.ownRefs` the references
that it holds by itself. A field *holds* the references of all fields within it (`Field.Holds`), and
`Field.refs` lists just these (`mem_refs_iff_holds`). Changing references changes the list item by
item (`refs_mapRefs`), and completing a field does not change it (`refs_complete`). Both change the
fields inside one by one (`inner_mapRefs`, `inner_complete`). -/

namespace WireSchema

open Relation

/-! ### What a field holds -/

/-- The field of a prefix, if it is declared inside. -/
def prefixInner : Option Prefix → List Field
  | none => []
  | some (.inline f) => [f]
  | some (.named _) => []

/-- The reference of a prefix, if the prefix names a field by its path. -/
def prefixOwnRefs : Option Prefix → List FieldRef
  | none => []
  | some (.inline _) => []
  | some (.named p) => p.refs

/-- The field of a part, if it is declared inside. -/
def Part.inner : Part → List Field
  | .inline f => [f]
  | .reference _ => []

/-- The reference of a part, if the part is one. -/
def Part.ownRefs : Part → List FieldRef
  | .inline _ => []
  | .reference r => [r]

/-- The members of a bitfield, bundle or variant; the element and the prefixes of a list. -/
def Body.inner : Body → List Field
  | .bitfield _ _ members => members
  | .bundle members _ => members
  | .variant members _ _ => members
  | .list element _ c l el _ =>
    element.inner ++ (prefixInner c ++ (prefixInner l ++ prefixInner el))
  | _ => []

/-- The references that stand in the body itself. -/
def Body.ownRefs : Body → List FieldRef
  | .string s => namedRefs s.lengthPrefix
  | .data d => namedRefs d.lengthPrefix
  | .list element _ c l el _ =>
    element.ownRefs ++ (prefixOwnRefs c ++ (prefixOwnRefs l ++ prefixOwnRefs el))
  | .ref target _ => [target]
  | .optional o => [o.field]
  | _ => []

namespace Field

/-- The fields that are declared directly inside. -/
def inner (f : Field) : List Field := f.body.inner

/-- The references that the field holds by itself. -/
def ownRefs (f : Field) : List FieldRef := f.body.ownRefs

/-- `g` is `f`, or it is declared inside of `f` at any depth. -/
def Within (g f : Field) : Prop := ReflTransGen (fun x y => y ∈ x.inner) f g

/-- The reference stands in the field, or in one inside of it at any depth. -/
def Holds (f : Field) (r : FieldRef) : Prop := ∃ g, Within g f ∧ r ∈ g.ownRefs

theorem members_subset_inner (f : Field) : f.members ⊆ f.inner := by
  obtain ⟨core, body⟩ := f
  change body.members ⊆ body.inner
  cases body with
  | bitfield | bundle | variant => exact fun _ hg => hg
  | _ => exact List.nil_subset _

theorem sizeOf_of_mem_prefixInner {g : Field} {p : Option Prefix} (h : g ∈ prefixInner p) :
    sizeOf g < sizeOf p := by
  rcases p with _ | p
  · simp [prefixInner] at h
  · cases p with
    | named p => simp [prefixInner] at h
    | inline f =>
      rw [prefixInner, List.mem_singleton] at h
      subst h
      simp only [Option.some.sizeOf_spec, Prefix.inline.sizeOf_spec]
      omega

theorem sizeOf_of_mem_inner {f g : Field} (h : g ∈ f.inner) : sizeOf g < sizeOf f := by
  obtain ⟨core, body⟩ := f
  change g ∈ body.inner at h
  rw [Field.mk.sizeOf_spec]
  cases body with
  | bitfield endian length members =>
    have : sizeOf g < sizeOf members := List.sizeOf_lt_of_mem h
    rw [Body.bitfield.sizeOf_spec]; omega
  | bundle members aliases =>
    have : sizeOf g < sizeOf members := List.sizeOf_lt_of_mem h
    rw [Body.bundle.sizeOf_spec]; omega
  | variant members default aliases =>
    have : sizeOf g < sizeOf members := List.sizeOf_lt_of_mem h
    rw [Body.variant.sizeOf_spec]; omega
  | list element count c l el fixed =>
    rw [Body.list.sizeOf_spec]
    simp only [Body.inner, List.mem_append] at h
    rcases h with h | h | h | h
    · cases element with
      | reference r => simp [Part.inner] at h
      | inline e =>
        rw [Part.inner, List.mem_singleton] at h
        subst h
        rw [Part.inline.sizeOf_spec]; omega
    · have := sizeOf_of_mem_prefixInner h; omega
    · have := sizeOf_of_mem_prefixInner h; omega
    · have := sizeOf_of_mem_prefixInner h; omega
  | int | float | enum | set | string | data | ref | optional => simp [Body.inner] at h

/-- Induction on fields: what holds of a field when it holds of the fields directly inside, holds
of every field. -/
@[elab_as_elim]
theorem nested_induction {P : Field → Prop} (step : ∀ f : Field, (∀ g ∈ f.inner, P g) → P f)
    (f : Field) : P f :=
  step f fun g _ => nested_induction step g
termination_by sizeOf f
decreasing_by exact sizeOf_of_mem_inner ‹_›

end Field

/-! ### The list of references -/

theorem mem_prefixRefs {p : Option Prefix} {r : FieldRef} :
    r ∈ prefixRefs p ↔ r ∈ prefixOwnRefs p ∨ ∃ g ∈ prefixInner p, r ∈ g.refs := by
  rcases p with _ | p
  · simp [prefixRefs, prefixOwnRefs, prefixInner]
  · cases p <;> simp [prefixRefs, prefixOwnRefs, prefixInner]

namespace Field

theorem mem_refs {f : Field} {r : FieldRef} :
    r ∈ f.refs ↔ r ∈ f.ownRefs ∨ ∃ g ∈ f.inner, r ∈ g.refs := by
  obtain ⟨core, body⟩ := f
  change _ ↔ r ∈ body.ownRefs ∨ ∃ g ∈ body.inner, r ∈ g.refs
  cases body with
  | bitfield endian length members =>
    simp [refs, Body.ownRefs, Body.inner, memberRefs_eq_flatMap]
  | bundle members aliases => simp [refs, Body.ownRefs, Body.inner, memberRefs_eq_flatMap]
  | variant members default aliases =>
    simp [refs, Body.ownRefs, Body.inner, memberRefs_eq_flatMap]
  | list element count c l el fixed =>
    cases element with
    | inline e =>
      simp only [refs, Body.ownRefs, Body.inner, Part.ownRefs, Part.inner, List.mem_append,
        mem_prefixRefs, List.mem_singleton, List.not_mem_nil, false_or, or_and_right, exists_or,
        exists_eq_left, or_assoc, or_left_comm]
    | reference r' =>
      simp only [refs, Body.ownRefs, Body.inner, Part.ownRefs, Part.inner, List.mem_append,
        mem_prefixRefs, List.mem_cons, List.not_mem_nil, or_false, false_or, or_and_right,
        exists_or, or_assoc, or_left_comm]
  | int | float | enum | set | string | data | ref | optional =>
    simp [refs, Body.ownRefs, Body.inner]

/-- **The list holds the references at every depth**, and no others. -/
theorem mem_refs_iff_holds {f : Field} {r : FieldRef} : r ∈ f.refs ↔ f.Holds r := by
  constructor
  · induction f using nested_induction with
    | step f ih =>
      intro h
      rcases mem_refs.mp h with h | ⟨g, hg, h⟩
      · exact ⟨f, ReflTransGen.refl, h⟩
      · obtain ⟨k, hk, hr⟩ := ih g hg h
        exact ⟨k, ReflTransGen.head hg hk, hr⟩
  · rintro ⟨g, hg, hr⟩
    unfold Within at hg
    induction hg using ReflTransGen.head_induction_on with
    | refl => exact mem_refs.mpr (Or.inl hr)
    | head hin _ ih => exact mem_refs.mpr (Or.inr ⟨_, hin, ih⟩)

theorem mem_refs_of_within {f g : Field} {r : FieldRef} (h : g.Within f) (hr : r ∈ g.refs) :
    r ∈ f.refs := by
  obtain ⟨k, hk, hr⟩ := mem_refs_iff_holds.mp hr
  exact mem_refs_iff_holds.mpr ⟨k, ReflTransGen.trans h hk, hr⟩

end Field

/-! ### Changing references -/

theorem namedRefs_map (g : FieldRef → FieldRef) (p : Option PrefixName) :
    namedRefs (p.map (·.mapRefs g)) = (namedRefs p).map g := by
  rcases p with _ | p
  · rfl
  · cases p <;> rfl

theorem prefixRefs_mapPrefixRefs {g : FieldRef → FieldRef} {p : Option Prefix}
    (h : ∀ f ∈ prefixInner p, (f.mapRefs g).refs = f.refs.map g) :
    prefixRefs (mapPrefixRefs g p) = (prefixRefs p).map g := by
  rcases p with _ | p
  · simp [mapPrefixRefs, prefixRefs]
  · cases p with
    | inline f =>
      simp only [mapPrefixRefs, prefixRefs]
      exact h f (by simp [prefixInner])
    | named p => cases p <;> simp [mapPrefixRefs, prefixRefs, PrefixName.mapRefs, PrefixName.refs]

theorem memberRefs_mapMemberRefs {g : FieldRef → FieldRef} {fs : List Field}
    (h : ∀ f ∈ fs, (f.mapRefs g).refs = f.refs.map g) :
    memberRefs (mapMemberRefs g fs) = (memberRefs fs).map g := by
  rw [memberRefs_eq_flatMap, memberRefs_eq_flatMap, mapMemberRefs_eq_map, List.map_flatMap,
    List.flatMap_map]
  exact List.flatMap_congr h

namespace Field

theorem refs_mapRefs (g : FieldRef → FieldRef) (f : Field) :
    (f.mapRefs g).refs = f.refs.map g := by
  induction f using nested_induction with
  | step f ih =>
    obtain ⟨core, body⟩ := f
    change ∀ f ∈ body.inner, _ at ih
    cases body with
    | bitfield endian length members =>
      simp only [mapRefs, refs]; exact memberRefs_mapMemberRefs ih
    | bundle members aliases => simp only [mapRefs, refs]; exact memberRefs_mapMemberRefs ih
    | variant members default aliases =>
      simp only [mapRefs, refs]; exact memberRefs_mapMemberRefs ih
    | list element count c l el fixed =>
      simp only [Body.inner, List.mem_append] at ih
      have hc := prefixRefs_mapPrefixRefs fun f hf => ih f (Or.inr (Or.inl hf))
      have hl := prefixRefs_mapPrefixRefs fun f hf => ih f (Or.inr (Or.inr (Or.inl hf)))
      have hel := prefixRefs_mapPrefixRefs fun f hf => ih f (Or.inr (Or.inr (Or.inr hf)))
      cases element with
      | inline e =>
        have he := ih e (Or.inl (by simp [Part.inner]))
        simp only [mapRefs, refs, he, hc, hl, hel, List.map_append]
      | reference r => simp only [mapRefs, refs, hc, hl, hel, List.map_append, List.map_cons]
    | string s => simp only [mapRefs, refs]; exact namedRefs_map g _
    | data d => simp only [mapRefs, refs]; exact namedRefs_map g _
    | int | float | enum | set | ref | optional => simp [mapRefs, refs]

theorem prefixInner_mapPrefixRefs (g : FieldRef → FieldRef) (p : Option Prefix) :
    prefixInner (mapPrefixRefs g p) = (prefixInner p).map (mapRefs g) := by
  rcases p with _ | p
  · simp [mapPrefixRefs, prefixInner]
  · cases p <;> simp [mapPrefixRefs, prefixInner]

theorem inner_mapRefs (g : FieldRef → FieldRef) (f : Field) :
    (f.mapRefs g).inner = f.inner.map (mapRefs g) := by
  obtain ⟨core, body⟩ := f
  cases body with
  | list element count c l el fixed =>
    cases element <;>
      simp [mapRefs, inner, Field.body, Body.inner, Part.inner, prefixInner_mapPrefixRefs]
  | _ => simp [mapRefs, inner, Field.body, Body.inner, mapMemberRefs_eq_map]

theorem members_mapRefs (g : FieldRef → FieldRef) (f : Field) :
    (f.mapRefs g).members = f.members.map (mapRefs g) := by
  obtain ⟨core, body⟩ := f
  cases body with
  | list element count c l el fixed => cases element <;> rfl
  | _ => simp [mapRefs, members, Field.body, Body.members, mapMemberRefs_eq_map]

/-! ### One change after the other -/

theorem mapMemberRefs_mapMemberRefs {g h : FieldRef → FieldRef} {fs : List Field}
    (hfs : ∀ f ∈ fs, (f.mapRefs g).mapRefs h = f.mapRefs (h ∘ g)) :
    mapMemberRefs h (mapMemberRefs g fs) = mapMemberRefs (h ∘ g) fs := by
  rw [mapMemberRefs_eq_map, mapMemberRefs_eq_map, mapMemberRefs_eq_map, List.map_map]
  exact List.map_congr_left hfs

theorem mapPrefixRefs_mapPrefixRefs {g h : FieldRef → FieldRef} {p : Option Prefix}
    (hp : ∀ f ∈ prefixInner p, (f.mapRefs g).mapRefs h = f.mapRefs (h ∘ g)) :
    mapPrefixRefs h (mapPrefixRefs g p) = mapPrefixRefs (h ∘ g) p := by
  rcases p with _ | p
  · rfl
  · cases p with
    | inline f => simp only [mapPrefixRefs, hp f (by simp [prefixInner])]
    | named p => cases p <;> rfl

theorem map_namedRefs_map (g h : FieldRef → FieldRef) (p : Option PrefixName) :
    (p.map (·.mapRefs g)).map (·.mapRefs h) = p.map (·.mapRefs (h ∘ g)) := by
  rcases p with _ | p
  · rfl
  · cases p <;> rfl

theorem mapRefs_mapRefs (h g : FieldRef → FieldRef) (f : Field) :
    (f.mapRefs g).mapRefs h = f.mapRefs (h ∘ g) := by
  induction f using nested_induction with
  | step f ih =>
    obtain ⟨core, body⟩ := f
    change ∀ f ∈ body.inner, _ at ih
    cases body with
    | bitfield endian length members =>
      have hm : mapMemberRefs h (mapMemberRefs g members) = _ := mapMemberRefs_mapMemberRefs ih
      simp only [mapRefs, hm]
    | bundle members aliases =>
      have hm : mapMemberRefs h (mapMemberRefs g members) = _ := mapMemberRefs_mapMemberRefs ih
      simp only [mapRefs, hm]
    | variant members default aliases =>
      have hm : mapMemberRefs h (mapMemberRefs g members) = _ := mapMemberRefs_mapMemberRefs ih
      simp only [mapRefs, hm]
    | list element count c l el fixed =>
      simp only [Body.inner, List.mem_append] at ih
      have hc := mapPrefixRefs_mapPrefixRefs fun f hf => ih f (Or.inr (Or.inl hf))
      have hl := mapPrefixRefs_mapPrefixRefs fun f hf => ih f (Or.inr (Or.inr (Or.inl hf)))
      have hel := mapPrefixRefs_mapPrefixRefs fun f hf => ih f (Or.inr (Or.inr (Or.inr hf)))
      cases element with
      | inline e =>
        have he := ih e (Or.inl (by simp [Part.inner]))
        simp only [mapRefs, he, hc, hl, hel]
      | reference r => simp only [mapRefs, hc, hl, hel, Function.comp_apply]
    | string s => simp only [mapRefs, map_namedRefs_map]
    | data d => simp only [mapRefs, map_namedRefs_map]
    | int | float | enum | set | ref | optional => rfl

end Field

/-! ### Completing fields -/

theorem prefixRefs_completePrefix {a : Arena} {p : Option Prefix}
    (h : ∀ f ∈ prefixInner p, (f.complete a).1.refs = f.refs) :
    prefixRefs (completePrefix a p).1 = prefixRefs p := by
  rcases p with _ | p
  · simp [completePrefix]
  · cases p with
    | inline f =>
      simp only [completePrefix, prefixRefs]
      exact h f (by simp [prefixInner])
    | named p => simp [completePrefix]

theorem memberRefs_completeMembers {a : Arena} {fs : List Field}
    (h : ∀ f ∈ fs, (f.complete a).1.refs = f.refs) :
    memberRefs (completeMembers a fs).1 = memberRefs fs := by
  rw [completeMembers_fst, memberRefs_eq_flatMap, memberRefs_eq_flatMap, List.flatMap_map]
  exact List.flatMap_congr h

namespace Field

theorem prefixInner_completePrefix (a : Arena) (p : Option Prefix) :
    prefixInner (completePrefix a p).1 = (prefixInner p).map fun f => (f.complete a).1 := by
  rcases p with _ | p
  · simp [completePrefix, prefixInner]
  · cases p <;> simp [completePrefix, prefixInner]

theorem inner_complete (a : Arena) (f : Field) :
    (f.complete a).1.inner = f.inner.map fun f => (f.complete a).1 := by
  obtain ⟨core, body⟩ := f
  cases body with
  | list element count c l el fixed =>
    cases element <;>
      simp [complete, inner, Field.body, Body.inner, Part.inner, prefixInner_completePrefix]
  | _ => simp [complete, inner, Field.body, Body.inner, completeMembers_fst]

theorem members_complete (a : Arena) (f : Field) :
    (f.complete a).1.members = f.members.map fun m => (m.complete a).1 := by
  obtain ⟨core, body⟩ := f
  cases body with
  | list element count c l el fixed =>
    cases element <;> simp [complete, members, Field.body, Body.members]
  | _ => simp [complete, members, Field.body, Body.members, completeMembers_fst]

theorem refs_complete (a : Arena) (f : Field) : (f.complete a).1.refs = f.refs := by
  induction f using nested_induction with
  | step f ih =>
    obtain ⟨core, body⟩ := f
    change ∀ f ∈ body.inner, _ at ih
    cases body with
    | bitfield endian length members =>
      simp only [complete, refs]; exact memberRefs_completeMembers ih
    | bundle members aliases => simp only [complete, refs]; exact memberRefs_completeMembers ih
    | variant members default aliases =>
      simp only [complete, refs]; exact memberRefs_completeMembers ih
    | list element count c l el fixed =>
      simp only [Body.inner, List.mem_append] at ih
      have hc := prefixRefs_completePrefix fun f hf => ih f (Or.inr (Or.inl hf))
      have hl := prefixRefs_completePrefix fun f hf => ih f (Or.inr (Or.inr (Or.inl hf)))
      have hel := prefixRefs_completePrefix fun f hf => ih f (Or.inr (Or.inr (Or.inr hf)))
      cases element with
      | inline e =>
        have he := ih e (Or.inl (by simp [Part.inner]))
        simp only [complete, refs, he, hc, hl, hel]
      | reference r => simp only [complete, refs, hc, hl, hel]
    | int | float | enum | set | string | data | ref | optional => simp [complete, refs]

end Field

end WireSchema
