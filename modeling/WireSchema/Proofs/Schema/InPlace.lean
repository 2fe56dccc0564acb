import WireSchema.Proofs.Field.Lookups
import WireSchema.Proofs.Schema.Naming

/-! # Fields that are set aside

A field is set aside while it is completed, and its place holds a blank one. In an arena without
cycles the lookups for a field never come back to its place (`Arena.notMem_lookups_set`), so that it
makes no difference what stands there (`Arena.complete_eq_of_get?_eq`). Hence completing the arena
gives the same as completing it with all fields left at their places, and the blank fields are gone
in the end (`Arena.completes_in_place`). -/

namespace WireSchema

open Markup Relation

namespace Arena

variable {a d : Arena} {i j : FieldId} {f g : Field}

/-! ### Completing in place -/

/-- Completes the field at a place, which holds the field as it was meanwhile. -/
def completeInPlaceAt (a : Arena) (id : FieldId) : Arena × List Finding :=
  match a.get? id with
  | none => (a, [])
  | some f =>
    let r := f.complete a
    (a.set id r.1, r.2)

/-- Completes the fields at the places in order, none of them set aside. -/
def completeInPlaceFrom (a : Arena) : List FieldId → Arena × List Finding
  | [] => (a, [])
  | id :: ids =>
    let r := a.completeInPlaceAt id
    let s := r.1.completeInPlaceFrom ids
    (s.1, r.2 ++ s.2)

/-- Completes every field in the order of the arena, none of them set aside. -/
def completeInPlace (a : Arena) : Arena × List Finding :=
  a.completeInPlaceFrom (List.range a.size)

/-! ### The place of a field that is set aside -/

theorem size_set (a : Arena) (i : FieldId) (f : Field) : (a.set i f).size = a.size :=
  Array.size_setIfInBounds

theorem get?_set_of_ne (h : j ≠ i) (a : Arena) (f : Field) : (a.set i f).get? j = a.get? j := by
  rw [get?_set, if_neg (Ne.symm h)]

theorem set_set (a : Arena) (i : FieldId) (f g : Field) : (a.set i f).set i g = a.set i g :=
  congrArg Arena.mk (Array.setIfInBounds_setIfInBounds ..)

/-- A blank field holds no reference. -/
theorem Edge.of_set_blank {k : FieldId} (h : (a.set i .blank).Edge k j) : a.Edge k j := by
  obtain ⟨t, r, ht, hr, hj⟩ := h
  by_cases hk : k = i
  · subst hk
    rw [get?_set, if_pos rfl] at ht
    obtain ⟨_, -, rfl⟩ := Option.map_eq_some_iff.mp ht
    exact absurd (Field.mem_refs_iff_holds.mpr hr) List.not_mem_nil
  · rw [get?_set_of_ne hk] at ht
    exact ⟨t, r, ht, hr, hj⟩

/-- **The place of a field is not looked up** while the field is completed. -/
theorem notMem_lookups_set (hac : a.Acyclic) (hf : a.get? i = some f) :
    i ∉ f.lookups (a.set i .blank) := by
  intro hi
  obtain ⟨r, hr, k, hk, hpath⟩ := Field.reaches_of_mem_lookups hi
  have hedge : a.Edge i k := ⟨f, r, hf, Field.mem_refs_iff_holds.mp hr, hk⟩
  have hback : ReflTransGen a.Edge k i := hpath.lift id fun _ _ h => Edge.of_set_blank h
  exact hac i (.head' hedge hback)

/-- Arenas that differ at the place of the field at most complete it alike. -/
theorem complete_eq_of_get?_eq (hac : a.Acyclic) (hf : a.get? i = some f) (hsize : d.size = a.size)
    (hget : ∀ j, j ≠ i → d.get? j = a.get? j) : f.complete d = f.complete (a.set i .blank) := by
  refine Field.complete_eq_of_agreesOn ⟨hsize.trans (a.size_set i _).symm, fun j hj => ?_⟩
  have hne : j ≠ i := fun h => notMem_lookups_set hac hf (h ▸ hj)
  rw [hget j hne, get?_set_of_ne hne]

/-! ### Turn by turn -/

theorem acyclic_completeFrom (hac : a.Acyclic) (ids : List FieldId) :
    (a.completeFrom ids).1.Acyclic := by
  have hrefs (i : FieldId) : (a.completeFrom ids).1.refsAt i = a.refsAt i := by
    unfold refsAt
    rw [map_get?_completeFrom fun b f => Field.refs_complete b f]
  unfold Acyclic
  rwa [edge_eq_of_refsAt_eq hrefs]

theorem completeAt_eq_completeInPlaceAt (hac : a.Acyclic) (id : FieldId) :
    a.completeAt id = a.completeInPlaceAt id := by
  unfold completeAt completeInPlaceAt
  cases hf : a.get? id with
  | none => rfl
  | some f =>
    simp only [set_set, complete_eq_of_get?_eq hac hf rfl fun _ _ => rfl]

theorem completeFrom_eq_completeInPlaceFrom (hac : a.Acyclic) (ids : List FieldId) :
    a.completeFrom ids = a.completeInPlaceFrom ids := by
  induction ids generalizing a with
  | nil => rfl
  | cons id ids ih =>
    have hnext : (a.completeAt id).1.Acyclic := acyclic_completeFrom hac [id]
    rw [completeFrom, completeInPlaceFrom, ih hnext, completeAt_eq_completeInPlaceAt hac]

/-! ### The whole arena -/

/-- It makes no difference for the arena that fields are set aside while they are completed. -/
structure CompletesInPlace (a : Arena) : Prop where
  /-- The fields and the findings are those of completing in place. -/
  complete_eq : a.complete = a.completeInPlace
  /-- No lookup for a field comes to the place that it was taken from. -/
  notMem_lookups : ∀ i f, a.get? i = some f → i ∉ f.lookups (a.atTurn i)
  /-- Any other field could stand there meanwhile. -/
  complete_set : ∀ i f g, a.get? i = some f →
    f.complete ((a.atTurn i).set i g) = f.complete (a.atTurn i)
  /-- A field that is blank in the end had no name before. -/
  name_of_blank : ∀ i, a.complete.1.get? i = some .blank → ∃ f, a.get? i = some f ∧ f.name = ""

theorem completesInPlace_of_acyclic (hac : a.Acyclic) : a.CompletesInPlace := by
  have hturn (i : FieldId) : (a.completeFrom (List.range i)).1.Acyclic := acyclic_completeFrom hac _
  -- the turns before that of `i` leave its place alone
  have hget (i : FieldId) : (a.completeFrom (List.range i)).1.get? i = a.get? i :=
    get?_completeFrom_of_notMem (by simp) a
  refine ⟨completeFrom_eq_completeInPlaceFrom hac _, fun i f hf => ?_, fun i f g hf => ?_,
    fun i hi => ?_⟩
  · exact notMem_lookups_set (hturn i) ((hget i).trans hf)
  · rw [atTurn, set_set]
    exact complete_eq_of_get?_eq (hturn i) ((hget i).trans hf) (size_set _ i g)
      fun j hj => get?_set_of_ne hj _ g
  · rw [get?_complete] at hi
    obtain ⟨f, hf, hblank⟩ := Option.map_eq_some_iff.mp hi
    refine ⟨f, hf, by_contra fun hne => ?_⟩
    have hname := Field.name_complete_of_ne hne (a.atTurn i)
    rw [hblank] at hname
    exact hne hname.symm

/-- A bundle with a reference to itself, and an alias that leads through it. -/
def selfReferring : Arena :=
  let named (name : String) := { Field.blank.core with name }
  ⟨#[.mk (named "A") (.bundle
    [.mk (named "T") (.bundle [] []), .mk (named "a") (.ref ⟨"A", some 0, 3⟩ none)]
    [⟨"t", "a.T", "", 4⟩])]⟩

/-- With a cycle, the alias is lost where the bundle is set aside, and only there. -/
example : selfReferring.complete.2.length = 1 ∧ selfReferring.completeInPlace.2 = [] := by
  decide +kernel

end Arena

theorem Schema.Built.name_ne_empty_of_get?_boundArena {s : Schema} (hs : s.Built) {i : FieldId}
    {f : Field} (h : s.boundArena.get? i = some f) : f.name ≠ "" := by
  obtain ⟨change, hchange⟩ := s.exists_get?_boundArena i
  rw [hchange] at h
  obtain ⟨t, ht, rfl⟩ := Option.map_eq_some_iff.mp h
  rw [Field.name, Field.core_mapRefs]
  exact hs.name_ne_empty ht

/-- **Fields that are set aside are not missed.** In every arena whose cycles have been broken, each
field is completed as if all fields stood at their places: the lookups for it never come to its own
place. In a schema that has been read, no blank field is left at the end. -/
theorem Arena.completes_in_place (a : Arena) :
    a.breakCycles.1.CompletesInPlace ∧
      ∀ s : Schema, s.Built → s.bindRefs.1.arena = a →
        s.link.1.arena = a.breakCycles.1.completeInPlace.1 ∧
          ∀ i, s.link.1.arena.get? i ≠ some .blank := by
  have hplaces := completesInPlace_of_acyclic a.acyclic_breakCycles
  refine ⟨hplaces, ?_⟩
  rintro s hs rfl
  have hlink : s.link.1.arena = s.boundArena.complete.1 := s.arena_link
  refine ⟨hlink.trans (congrArg Prod.fst hplaces.complete_eq), fun i hi => ?_⟩
  rw [hlink] at hi
  obtain ⟨f, hf, hname⟩ := hplaces.name_of_blank i hi
  exact hs.name_ne_empty_of_get?_boundArena hf hname

namespace Schema

/-- A document with an alias that leads through a cycle of references. -/
def roundaboutDocument : Element :=
  ⟨"schema", [("name", "P")],
    [⟨"bundle", [("name", "A")],
      [⟨"ref", [("name", "b"), ("field", "B")], [], "", 3⟩,
        ⟨"alias", [("name", "t"), ("field", "b.T")], [], "", 4⟩], "", 2⟩,
      ⟨"bundle", [("name", "B")],
        [⟨"int", [("name", "T"), ("type", "uint8")], [], "", 6⟩,
          ⟨"ref", [("field", "A")], [], "", 7⟩], "", 5⟩], "", 1⟩

/-- The schema of `roundaboutDocument`. -/
def roundabout? : Option Schema :=
  (Session.after ⟨none, 0, none, false⟩ [.element roundaboutDocument]).schema

/-- The field `A` of `roundaboutDocument` looks `B` up, which referred to `A`, and not itself. -/
theorem lookups_of_roundaboutDocument :
    ∃ s : Schema, s.Built ∧ s.bindRefs.1.arena.breakCycles.2 ≠ [] ∧
      ∃ f, s.boundArena.get? 0 = some f ∧ 1 ∈ f.lookups (s.boundArena.atTurn 0) ∧
        0 ∉ f.lookups (s.boundArena.atTurn 0) ∧
        s.boundArena.complete = s.boundArena.completeInPlace ∧
        s.link.1.arena.get? 0 ≠ some .blank := by
  have heval : (roundabout?.bind fun s => (s.boundArena.get? 0).map fun f =>
      (s.bindRefs.1.arena.breakCycles.2.isEmpty, f.lookups (s.boundArena.atTurn 0))) =
      some (false, [1, 1]) := by decide +kernel
  simp only [Option.bind_eq_some_iff, Option.map_eq_some_iff, Prod.mk.injEq] at heval
  obtain ⟨s, hs, f, hf, hcut, hlookups⟩ := heval
  have hbuilt : s.Built := (Session.reachable_after _ _).built (by decide +kernel) s hs
  obtain ⟨hplaces, hleft⟩ := Arena.completes_in_place s.bindRefs.1.arena
  refine ⟨s, hbuilt, ?_, f, hf, ?_, hplaces.notMem_lookups 0 f hf, hplaces.complete_eq,
    (hleft s hbuilt rfl).2 0⟩
  · intro h
    rw [h] at hcut
    cases hcut
  · rw [hlookups]
    exact List.mem_cons_self

end Schema

end WireSchema
