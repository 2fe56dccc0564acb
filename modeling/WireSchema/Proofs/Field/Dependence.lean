import WireSchema.Message
import WireSchema.Proofs.Field.Nesting

/-! # Version dependence

A field is version dependent if it, or a member of it at any depth, begins later than the schema
(`isVersionDependent_iff`). The element and the prefixes of a list are fields inside of the list as
well, but no members, and are passed over: a field lies inside of another one if it is a member of
it at some depth, or is declared inside of a list among these (`within_iff`). So the answer is the
one for all fields inside unless some of them begin later and all of these are declared in lists
(`version_dependence_of_members`). -/

namespace WireSchema

open Markup Relation

namespace Field

/-- `g` is `f`, or a member of it at any depth. -/
def MemberWithin (g f : Field) : Prop := ReflTransGen (fun x y => y ∈ x.members) f g

/-- Nothing that is declared inside of a list, be it the field or a member of it at any depth,
begins later than the schema. -/
def ListsFromStart (f : Field) : Prop :=
  ∀ l : Field, l.MemberWithin f → l.kind = .list →
    ∀ p ∈ l.inner, ∀ g : Field, g.Within p → g.window.since = 0

/-! ### Members and other fields inside -/

theorem inner_eq_members {f : Field} (h : f.kind ≠ .list) : f.inner = f.members := by
  obtain ⟨core, body⟩ := f
  cases body with
  | list element count c l el fixed => exact absurd rfl h
  | _ => rfl

theorem MemberWithin.within {f g : Field} (h : g.MemberWithin f) : g.Within f := by
  unfold MemberWithin at h
  induction h with
  | refl => exact ReflTransGen.refl
  | tail _ hm ih => exact ReflTransGen.tail ih (members_subset_inner _ hm)

/-- **A field inside is a member at some depth, or it is declared inside of a list that is one.** -/
theorem within_iff {f g : Field} : g.Within f ↔
    g.MemberWithin f ∨ ∃ l : Field, l.MemberWithin f ∧ l.kind = .list ∧
      ∃ p ∈ l.inner, g.Within p := by
  constructor
  · intro h
    unfold Within at h
    -- from the outside inwards, up to the first list on the way
    induction h using ReflTransGen.head_induction_on with
    | refl => exact Or.inl ReflTransGen.refl
    | @head x y hin hwithin ih =>
      by_cases hlist : x.kind = .list
      · exact Or.inr ⟨x, ReflTransGen.refl, hlist, y, hin, hwithin⟩
      · have hmember : y ∈ x.members := by
          rw [← inner_eq_members hlist]
          exact hin
        rcases ih with hg | ⟨l, hl, hkind, p, hp, hg⟩
        · exact Or.inl (ReflTransGen.head hmember hg)
        · exact Or.inr ⟨l, ReflTransGen.head hmember hl, hkind, p, hp, hg⟩
  · rintro (h | ⟨l, hl, -, p, hp, hg⟩)
    · exact h.within
    · have hlp : g.Within l := ReflTransGen.head hp hg
      exact ReflTransGen.trans hl.within hlp

/-! ### The answer -/

theorem anyVersionDependent_iff {fs : List Field} :
    anyVersionDependent fs = true ↔ ∃ f ∈ fs, f.isVersionDependent = true := by
  induction fs with
  | nil => simp [anyVersionDependent]
  | cons f fs ih => simp [anyVersionDependent, ih]

theorem isVersionDependent_step {f : Field} :
    f.isVersionDependent = true ↔
      0 < f.window.since ∨ ∃ m ∈ f.members, m.isVersionDependent = true := by
  obtain ⟨core, body⟩ := f
  rw [← anyVersionDependent_iff]
  cases body <;>
    simp [isVersionDependent, anyVersionDependent, window, Field.core, members, Field.body,
      Body.members]

/-- **A field is version dependent if it, or a member of it at any depth, begins later than the
schema**, and only then. -/
theorem isVersionDependent_iff {f : Field} :
    f.isVersionDependent = true ↔ ∃ g : Field, g.MemberWithin f ∧ 0 < g.window.since := by
  constructor
  · intro h
    induction f using nested_induction with
    | step f ih =>
      rcases isVersionDependent_step.mp h with hlater | ⟨m, hm, hdependent⟩
      · exact ⟨f, ReflTransGen.refl, hlater⟩
      · obtain ⟨g, hg, hlater⟩ := ih m (f.members_subset_inner hm) hdependent
        exact ⟨g, ReflTransGen.head hm hg, hlater⟩
  · rintro ⟨g, hg, hlater⟩
    unfold MemberWithin at hg
    induction hg using ReflTransGen.head_induction_on with
    | refl => exact isVersionDependent_step.mpr (Or.inl hlater)
    | head hm _ ih => exact isVersionDependent_step.mpr (Or.inr ⟨_, hm, ih⟩)

/-- **Version dependence looks at members.** A field is version dependent if and only if it, or a
member of it at any depth, begins later than the schema. This says the same as that some field
inside of it does, at any depth, if and only if one of them does or nothing that is declared inside
of its lists begins later. -/
theorem version_dependence_of_members (f : Field) :
    (f.isVersionDependent = true ↔ ∃ g : Field, g.MemberWithin f ∧ 0 < g.window.since) ∧
    ((f.isVersionDependent = true ↔ ∃ g : Field, g.Within f ∧ 0 < g.window.since) ↔
      ((∃ g : Field, g.MemberWithin f ∧ 0 < g.window.since) ∨ f.ListsFromStart)) := by
  refine ⟨isVersionDependent_iff, ?_⟩
  rw [isVersionDependent_iff]
  constructor
  · intro hsame
    by_cases hmember : ∃ g : Field, g.MemberWithin f ∧ 0 < g.window.since
    · exact Or.inl hmember
    · refine Or.inr fun l hl hkind p hp g hg => ?_
      have hnone : ¬ ∃ g : Field, g.Within f ∧ 0 < g.window.since := fun h =>
        hmember (hsame.mpr h)
      have hwithin : g.Within f := within_iff.mpr (Or.inr ⟨l, hl, hkind, p, hp, hg⟩)
      by_contra hlater
      exact hnone ⟨g, hwithin, Nat.pos_of_ne_zero hlater⟩
  · intro h
    constructor
    · rintro ⟨g, hg, hlater⟩
      exact ⟨g, hg.within, hlater⟩
    · rintro ⟨g, hg, hlater⟩
      rcases h with hmember | hlists
      · exact hmember
      · rcases within_iff.mp hg with hg | ⟨l, hl, hkind, p, hp, hg⟩
        · exact ⟨g, hg, hlater⟩
        · have hstart := hlists l hl hkind p hp g hg
          omega

/-- A list of integers, which begin with version 1. -/
def laterElements : Element :=
  ⟨"list", [("name", "L"), ("count", "2")],
    [⟨"int", [("name", "x"), ("type", "uint8"), ("sinceVersion", "1")], [], "", 2⟩], "", 1⟩

/-- The field that is read from an element of a namespace, in a schema of version 2. -/
def readInVersion2 (e : Element) : Option Field :=
  (readInside ⟨[], 2, .little, ""⟩ e .inNamespace e).result.toOption

/-- The element of a list is not looked at. -/
theorem not_isVersionDependent_laterElements :
    ∃ f x : Field, readInVersion2 laterElements = some f ∧ x.Within f ∧ 0 < x.window.since ∧
      f.isVersionDependent = false := by
  have heval : (readInVersion2 laterElements).map (fun f =>
      (f.inner.head?.map fun x => x.window.since, f.isVersionDependent)) =
        some (some 1, false) := by decide +kernel
  obtain ⟨f, hf, heval⟩ := Option.map_eq_some_iff.mp heval
  rw [Prod.mk.injEq, Option.map_eq_some_iff] at heval
  obtain ⟨⟨x, hx, hlater⟩, hanswer⟩ := heval
  have hwithin : x.Within f := ReflTransGen.single (List.mem_of_mem_head? hx)
  exact ⟨f, x, hf, hwithin, by omega, hanswer⟩

end Field

/-! ### Messages -/

/-- A message is version dependent if one of its fields, or a member of one at any depth, begins
later than the schema. -/
theorem Message.isVersionDependent_iff {m : Message} :
    m.isVersionDependent = true ↔
      ∃ f ∈ m.fields, ∃ g : Field, g.MemberWithin f ∧ 0 < g.window.since := by
  rw [isVersionDependent, Field.anyVersionDependent_iff]
  simp only [Field.isVersionDependent_iff]

end WireSchema
