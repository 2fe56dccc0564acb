import WireSchema.Proofs.Cycle.Rank
import WireSchema.Proofs.Field.Aliases
import WireSchema.Proofs.Field.Members
import WireSchema.Proofs.Schema.Passed
import WireSchema.Proofs.Schema.Places

/-! # Aliases of a linked schema

A bundle or variant is completed while the fields after it in the arena are not, so that references
there may still be without names. In a schema that passes its check, what an alias leads to from
there is in the linked schema as well (`simulates_seenFrom`), but not the other way around. It is if
all fields that come later have their names already (`simulates_link`). -/

namespace WireSchema

open Relation

namespace Field

variable {x y m : Field} {ms : List Field} {a b : Arena}

/-! ### Fields before and after their turn -/

/-- The second field is the first one, completed or not. -/
def Settles (x y : Field) : Prop := y = x ∨ ∃ a, y = (x.complete a).1

/-- Neither the field nor one inside of it is without a name. -/
def Named (f : Field) : Prop := ∀ g : Field, g.Within f → g.name ≠ ""

theorem Settles.ref? (h : x.Settles y) : y.ref? = x.ref? := by
  rcases h with rfl | ⟨a, rfl⟩
  · rfl
  · exact ref?_complete a x

theorem Named.mapRefs (h : x.Named) (g : FieldRef → FieldRef) : (x.mapRefs g).Named := by
  intro z hz
  obtain ⟨path, hz⟩ := within_iff_exists_at?.mp hz
  rw [at?, walk?_of_next (inner_mapRefs g)] at hz
  obtain ⟨w, hw, rfl⟩ := Option.map_eq_some_iff.mp hz
  rw [name, core_mapRefs]
  exact h w (within_iff_exists_at?.mpr ⟨path, hw⟩)

/-- Completing members does not hide one that has a name, if their names differ in the end. -/
theorem find?_map_complete {name : String} (hname : name ≠ "")
    (hdistinct : DistinctNames (ms.map fun m => (m.complete a).1))
    (h : ms.find? (·.name == name) = some m) :
    (ms.map fun m => (m.complete a).1).find? (·.name == name) = some (m.complete a).1 := by
  induction ms with
  | nil => simp at h
  | cons x ms ih =>
    rw [List.map_cons] at hdistinct ⊢
    obtain ⟨hx, hdistinct⟩ := List.pairwise_cons.mp hdistinct
    by_cases hxname : x.name = name
    · rw [List.find?_cons_of_pos (by simpa using hxname), Option.some.injEq] at h
      rw [← h, List.find?_cons_of_pos]
      rw [name_complete_of_ne (by rw [hxname]; exact hname), hxname, beq_self_eq_true]
    · rw [List.find?_cons_of_neg (by simpa using hxname)] at h
      have hm : m.name = name := by simpa using List.find?_some h
      have hmname : (m.complete a).1.name = name := by
        rw [name_complete_of_ne (by rw [hm]; exact hname), hm]
      -- a member that takes the name would have it before another one
      rw [List.find?_cons_of_neg, ih hdistinct h]
      have hmem := List.mem_map_of_mem (f := fun m => (m.complete a).1)
        (List.mem_of_find?_eq_some h)
      have hne := hx _ hmem (by rw [hmname]; exact hname)
      rw [hmname] at hne
      simpa using hne

theorem Named.inner (h : x.Named) (hm : m ∈ x.inner) : m.Named :=
  fun _ hg => h _ (ReflTransGen.head hm hg)

/-- Completing members that have names does not change which of them has a name. -/
theorem exists_find?_of_named {name : String} (hnamed : ∀ m ∈ ms, m.name ≠ "")
    (h : (ms.map fun m => (m.complete a).1).find? (·.name == name) = some m) :
    ∃ k, ms.find? (·.name == name) = some k ∧ m = (k.complete a).1 := by
  rw [List.find?_map, Option.map_eq_some_iff] at h
  obtain ⟨k, hk, rfl⟩ := h
  refine ⟨k, ?_, rfl⟩
  rw [← hk, ← List.head?_filter, ← List.head?_filter]
  refine congrArg List.head? (List.filter_congr fun m hm => ?_)
  rw [Function.comp_apply, name_complete_of_ne (hnamed m hm)]

end Field

namespace Schema

variable {s : Schema} {site : Site} {f g g' top : Field} {path : List Nat}

/-- The field at a place of the arena before and after its turn. -/
theorem settles_boundArena {i : FieldId} (h : s.boundArena.get? i = some f) :
    ∃ f', s.link.1.arena.get? i = some f' ∧ f.Settles f' := by
  refine ⟨_, ?_, Or.inr ⟨s.boundArena.atTurn i, rfl⟩⟩
  rw [arena_link, ← boundArena, Arena.get?_complete, h, Option.map_some]

/-- **What is found where a field is completed is found in the linked schema.** -/
theorem simulates_seenFrom (hsite : s.siteField? site = some top)
    (hdistinct : ∀ f, s.link.1.Contains f → DistinctNames f.members) :
    Arena.Simulates (fun x y => x.Settles y ∧ s.link.1.Contains y) (s.seenFrom site)
      s.link.1.arena where
  size := (s.size_seenFrom site).trans s.size_arena_link.symm
  ref h := h.1.ref?
  target {x y r x'} _ _ hx' := by
    obtain ⟨id, hid, hx'⟩ := Option.bind_eq_some_iff.mp hx'
    have hcounterpart : x' = .blank ∨ ∃ y', s.link.1.arena.get? id = some y' ∧ x'.Settles y' := by
      by_cases hself : site = .arena id
      · subst hself
        rw [get?_seenFrom_self hsite, Option.some.injEq] at hx'
        exact Or.inl hx'.symm
      · by_cases hbefore : site.IsBefore id
        · rw [get?_seenFrom_of_isBefore hsite hbefore] at hx'
          exact Or.inr (settles_boundArena hx')
        · rw [get?_seenFrom_of_not_isBefore hsite hself hbefore] at hx'
          exact Or.inr ⟨x', hx', Or.inl rfl⟩
    refine hcounterpart.imp_right fun ⟨y', hy', hsettles⟩ => ⟨y', ?_, hsettles, ?_⟩
    · rw [Arena.target?, hid, Option.bind_some, hy']
    · exact ⟨y', Or.inl ⟨id, hy'⟩, ReflTransGen.refl⟩
  member {x y ms segment m} h hms hsegment hm := by
    have hmem := List.mem_of_find?_eq_some hm
    obtain ⟨rfl | ⟨a, rfl⟩, hy⟩ := h
    · refine ⟨ms, m, hms, hm, Or.inl rfl, hy.inner ?_⟩
      rw [Field.inner_of_aliasScope? hms]
      exact hmem
    · have hms' := Field.aliasScope?_complete a x
      rw [hms, Option.map_some] at hms'
      have hd := hdistinct _ hy
      rw [Field.members_of_aliasScope? hms'] at hd
      refine ⟨_, _, hms', Field.find?_map_complete hsegment hd hm, Or.inr ⟨a, rfl⟩, hy.inner ?_⟩
      rw [Field.inner_of_aliasScope? hms']
      exact List.mem_map_of_mem hmem

/-- **What is found in the linked schema is found where a field is completed**, if the fields that
come later have their names already. From the field at `i` no reference leads back to it, so that
its own place does not matter. -/
theorem simulates_link {i : FieldId} (hsite : s.siteField? (.arena i) = some top)
    (hnamed : ∀ j f, i < j → s.arena.get? j = some f → f.Named) :
    Arena.Simulates (fun y x => (x = y ∨ x.Named ∧ ∃ a, y = (x.complete a).1) ∧
        s.link.1.arena.Below (s.link.1.arena.rank i) y)
      s.link.1.arena (s.seenFrom (.arena i)) where
  size := s.size_arena_link.trans (s.size_seenFrom _).symm
  ref {y x} h := by
    rcases h.1 with rfl | ⟨-, a, rfl⟩
    · rfl
    · exact (Field.ref?_complete a x).symm
  target {y x r y'} h href hy' := by
    obtain ⟨id, hid, hy'⟩ := Option.bind_eq_some_iff.mp hy'
    have hrank := h.2 r (Field.mem_refs_of_ref? href) id y' hid hy'
    have hne : Site.arena i ≠ .arena id := by
      rintro heq
      rw [Site.arena.injEq] at heq
      exact absurd hrank (heq ▸ Nat.lt_irrefl _)
    have hbelow : s.link.1.arena.Below (s.link.1.arena.rank i) y' :=
      fun r hr j t hj ht => (Arena.below_rank s.acyclic_link hy' r hr j t hj ht).trans hrank
    right
    rw [Arena.target?, hid, Option.bind_some]
    by_cases hbefore : i < id
    · obtain ⟨x', hx', hsettles⟩ : ∃ x', s.boundArena.get? id = some x' ∧ x'.Named ∧
          ∃ a, y' = (x'.complete a).1 := by
        obtain ⟨g, hg⟩ := s.exists_get?_boundArena id
        rw [arena_link, ← boundArena, Arena.get?_complete] at hy'
        obtain ⟨x', hx', rfl⟩ := Option.map_eq_some_iff.mp hy'
        obtain ⟨t, ht, rfl⟩ := Option.map_eq_some_iff.mp (hg.symm.trans hx')
        exact ⟨_, hx', (hnamed id t hbefore ht).mapRefs g, _, rfl⟩
      exact ⟨x', (get?_seenFrom_of_isBefore hsite hbefore).trans hx', Or.inr hsettles, hbelow⟩
    · exact ⟨y', (get?_seenFrom_of_not_isBefore hsite hne hbefore).trans hy', Or.inl rfl, hbelow⟩
  member {y x ms segment m} h hms _ hm := by
    have hmem := List.mem_of_find?_eq_some hm
    have hbelow := h.2.inner ((Field.inner_of_aliasScope? hms).symm ▸ hmem)
    rcases h.1 with rfl | ⟨hx, a, rfl⟩
    · exact ⟨ms, m, hms, hm, Or.inl rfl, hbelow⟩
    · rw [Field.aliasScope?_complete] at hms
      obtain ⟨ms, hscope, rfl⟩ := Option.map_eq_some_iff.mp hms
      have hinner {k : Field} (hk : k ∈ ms) : k.Named :=
        hx.inner ((Field.inner_of_aliasScope? hscope).symm ▸ hk)
      obtain ⟨k, hk, rfl⟩ :=
        Field.exists_find?_of_named (fun k hk => hinner hk k ReflTransGen.refl) hm
      exact ⟨ms, k, hscope, hk, Or.inr ⟨hinner (List.mem_of_find?_eq_some hk), a, rfl⟩, hbelow⟩

/-! ### Aliases at a place -/

variable {p : Place} {other : Alias} {dependent : Bool}

/-- A field keeps the aliases that lead to a member in what its site sees. -/
theorem aliases_link (hg : s.fieldAt? p = some g) (hg' : s.link.1.fieldAt? p = some g') :
    g'.aliases = g.aliases.filter (·.leads (s.seenFrom p.site) g') := by
  obtain ⟨change, rfl⟩ := eq_complete_of_fieldAt? hg hg'
  rw [Field.aliases_complete, Field.aliases_mapRefs]

/-- The aliases of a field, at any depth, were read beside its members. -/
theorem Built.aliasesRead (hs : s.Built) (hg : s.Contains g) : g.body.AliasesRead :=
  hs.forall_contains (yields_body_readMerged yields_aliasesRead_readBody) hg

theorem Built.empty_notMem_segments (hs : s.Built) (hg : s.Contains g) (h : other ∈ g.aliases) :
    "" ∉ Literal.segments other.fieldPath :=
  Literal.empty_notMem_segments ((hs.aliasesRead hg).path other h)

theorem leads_link (hs : s.Built) (hcheck : (s.link.1.check dependent).result = .ok true)
    (hg : s.fieldAt? p = some g) (hg' : s.link.1.fieldAt? p = some g') (h : other ∈ g.aliases)
    (hleads : other.leads (s.seenFrom p.site) g' = true) :
    other.leads s.link.1.arena g' = true := by
  obtain ⟨top, htop, -⟩ := Option.bind_eq_some_iff.mp hg
  have hdistinct (f : Field) (hf : s.link.1.Contains f) : DistinctNames f.members :=
    distinct_of_check hs.indexed.link hcheck hf f ReflTransGen.refl
  have hpath := hs.empty_notMem_segments (contains_iff_exists_fieldAt?.mpr ⟨p, hg⟩) h
  exact (simulates_seenFrom htop hdistinct).leads hpath
    ⟨Or.inl rfl, contains_iff_exists_fieldAt?.mpr ⟨p, hg'⟩⟩ hleads

theorem leads_seenFrom (hs : s.Built) (hg : s.fieldAt? p = some g)
    (hg' : s.link.1.fieldAt? p = some g') (h : other ∈ g.aliases)
    (hnamed : ∀ j f, p.site.IsBefore j → s.arena.get? j = some f → f.Named)
    (hleads : other.leads s.link.1.arena g' = true) :
    other.leads (s.seenFrom p.site) g' = true := by
  obtain ⟨site, path⟩ := p
  have hpath := hs.empty_notMem_segments (contains_iff_exists_fieldAt?.mpr ⟨_, hg⟩) h
  obtain ⟨top, htop, -⟩ := Option.bind_eq_some_iff.mp hg
  cases site with
  | slot ns slot => exact hleads
  | arena i =>
    obtain ⟨top', htop', hwithin⟩ := Option.bind_eq_some_iff.mp hg'
    have hbelow : s.link.1.arena.Below (s.link.1.arena.rank i) g' := fun r hr =>
      Arena.below_rank s.acyclic_link htop' r
        (Field.mem_refs_of_within (Field.within_iff_exists_at?.mpr ⟨_, hwithin⟩) hr)
    exact (simulates_link htop hnamed).leads hpath ⟨Or.inl rfl, hbelow⟩ hleads

end Schema

end WireSchema
