import WireSchema.Proofs.Field.Members
import WireSchema.Proofs.Literal.Path
import WireSchema.Proofs.Schema.Places
import WireSchema.Proofs.Session.Run

/-! # Names of references

A reference without a name of its own has the name of its target in the linked schema. A display
name is copied in the turn of the reference: if the reference comes before its target in the arena,
it gets the display name that the target was declared with, and that is not the one that the target
has in the end if the target is a reference that takes it from a third field
(`references_take_names`). -/

namespace WireSchema

open Markup Relation

namespace Schema

variable {s : Schema} {id : FieldId} {t : Field}

/-! ### Fields of the arena -/

/-- The fields of namespaces have names. -/
theorem Built.name_ne_empty (hs : s.Built) (h : s.arena.get? id = some t) : t.name ≠ "" := by
  have hname := hs.forall_arena (P := fun f => Literal.isName f.name = true)
    (fun ctx levels e _ f hf => (core_of_readMerged hf).1) id t h
  exact Literal.ne_empty_of_isName hname

theorem Built.name_link (hs : s.Built) {t' : Field} (h : s.arena.get? id = some t)
    (h' : s.link.1.arena.get? id = some t') : t'.name = t.name := by
  obtain ⟨g, hg⟩ := s.fieldAt?_link (.arena id)
  have hlink := hg []
  have ht : s.fieldAt? ⟨.arena id, []⟩ = some t := by rw [fieldAt?, siteField?, h]; rfl
  have ht' : s.link.1.fieldAt? ⟨.arena id, []⟩ = some t' := by rw [fieldAt?, siteField?, h']; rfl
  rw [ht, ht', Option.map_some, Option.some.injEq] at hlink
  have hcore : (t.mapRefs g).name = t.name := by rw [Field.name, Field.core_mapRefs]; rfl
  rw [hlink, Field.name_complete_of_ne (by rw [hcore]; exact hs.name_ne_empty h), hcore]

/-! ### References -/

variable {site : Site} {path : List Nat} {g g' t' : Field} {r : FieldRef} {bitLength : Option Nat}

/-- The core of a reference in a linked schema is named after the target that its site sees. -/
theorem core_of_ref_link (hg : s.fieldAt? ⟨site, path⟩ = some g)
    (hg' : s.link.1.fieldAt? ⟨site, path⟩ = some g') (hbody : g'.body = .ref r bitLength) :
    g'.core = g.core.nameAfter ((s.seenFrom site).target? r) := by
  obtain ⟨change, hlink⟩ := s.fieldAt?_link site
  have heq := hlink path
  rw [hg, hg', Option.map_some, Option.some.injEq] at heq
  rw [heq] at hbody ⊢
  rw [Field.core_complete_of_ref (Field.body_of_complete_eq_ref hbody), Field.core_mapRefs]

/-- What a site sees of a target: the field as it was read or as it is in the end. -/
theorem Built.exists_seen (hs : s.Built) (hg : s.fieldAt? ⟨site, path⟩ = some g)
    (hg' : s.link.1.fieldAt? ⟨site, path⟩ = some g') (hr : r ∈ g'.refs)
    (htarget : r.target = some id)
    (ht : s.arena.get? id = some t) (ht' : s.link.1.arena.get? id = some t') :
    ∃ u, (s.seenFrom site).get? id = some u ∧ u.name = t'.name ∧
      (site.IsBefore id → u.core.displayName = t.core.displayName) ∧
      (¬ site.IsBefore id → u.core.displayName = t'.core.displayName) := by
  obtain ⟨top, htop, -⟩ := Option.bind_eq_some_iff.mp hg
  by_cases hbefore : site.IsBefore id
  · obtain ⟨change, hchange⟩ := s.exists_get?_boundArena id
    refine ⟨t.mapRefs change, ?_, ?_, fun _ => by rw [Field.core_mapRefs],
      fun h => absurd hbefore h⟩
    · rw [get?_seenFrom_of_isBefore htop hbefore, hchange, ht, Option.map_some]
    · rw [hs.name_link ht ht', Field.name, Field.core_mapRefs]
      rfl
  · refine ⟨t', ?_, rfl, fun h => absurd h hbefore, fun _ => rfl⟩
    have hne := site_ne_of_mem_refs hg' hr htarget
    rw [get?_seenFrom_of_not_isBefore htop hne hbefore, ht']

/-- **References take the names of their targets.** Each field of a linked schema stands where it
stood as it was read. A bound reference that was read without a name has the name of its target. One
without a display name has that of its target as well, unless it comes before its target in the
arena: then it has the display name that its target was read with, which has to be that of the
target in the linked schema for the two to agree. -/
theorem references_take_names (s : Schema) (hs : s.Built) :
    (∀ g', s.link.1.Contains g' →
      ∃ p g, s.fieldAt? p = some g ∧ s.link.1.fieldAt? p = some g') ∧
    ∀ p g g' r id, s.fieldAt? p = some g → s.link.1.fieldAt? p = some g' →
      g'.ref? = some r → r.target = some id →
      ∃ t t', s.arena.get? id = some t ∧ s.link.1.arena.get? id = some t' ∧
        (g.name = "" → g'.name = t'.name) ∧
        (g.core.displayName = "" →
          (¬ p.site.IsBefore id → g'.core.displayName = t'.core.displayName) ∧
          (p.site.IsBefore id → g'.core.displayName = t.core.displayName) ∧
          (g'.core.displayName = t'.core.displayName ↔
            (p.site.IsBefore id → t.core.displayName = t'.core.displayName))) := by
  refine ⟨fun g' => exists_fieldAt?_of_contains_link, fun p g g' r id hg hg' href htarget => ?_⟩
  obtain ⟨site, path⟩ := p
  obtain ⟨bitLength, hbody⟩ := Field.ref?_eq_some.mp href
  have hr : r ∈ g'.refs :=
    Field.mem_refs.mpr (Or.inl (by simp [Field.ownRefs, hbody, Body.ownRefs]))
  have hmem := mem_refs_of_contains (contains_iff_exists_fieldAt?.mpr ⟨_, hg'⟩) hr
  have hfind := findField?_of_mem_refs_link hmem htarget
  obtain ⟨t, ht, -⟩ := hs.indexed.findField?_eq_some_iff.mp hfind
  obtain ⟨t', ht', -⟩ := (findField?_link hs.indexed).mp hfind
  obtain ⟨u, hu, hname, hbefore, hafter⟩ := hs.exists_seen hg hg' hr htarget ht ht'
  have hcore := core_of_ref_link hg hg' hbody
  rw [Arena.target?, htarget, Option.bind_some, hu] at hcore
  refine ⟨t, t', ht, ht', fun hempty => ?_, fun hempty => ?_⟩
  · rw [Field.name, hcore, ← hname]
    exact if_pos (by simpa [Field.name] using hempty)
  · have hdisplay : g'.core.displayName = u.core.displayName := by
      rw [hcore]
      exact if_pos (by simpa using hempty)
    rw [hdisplay]
    refine ⟨hafter, hbefore, fun h hb => (hbefore hb).symm.trans h, fun h => ?_⟩
    by_cases hb : site.IsBefore id
    · exact (hbefore hb).trans (h hb)
    · exact hafter hb

/-- A document with a chain of references, each before its target. -/
def chainDocument : Element :=
  ⟨"schema", [("name", "P")],
    [⟨"ref", [("name", "A"), ("field", "B")], [], "", 2⟩,
      ⟨"ref", [("name", "B"), ("field", "C")], [], "", 3⟩,
      ⟨"int", [("name", "C"), ("type", "uint8"), ("displayName", "Counter")], [], "", 4⟩,
      ⟨"message", [("name", "M"), ("id", "1")], [⟨"ref", [("field", "A")], [], "", 6⟩], "", 5⟩],
    "", 1⟩

/-- The schema of `chainDocument`. -/
def chain? : Option Schema := (Session.after ⟨none, 0, none, false⟩ [.element chainDocument]).schema

/-- At a place, the name and display name as they are read, those in the linked schema, and the
target. -/
def namesAt? (s : Schema) (p : Place) : Option ((String × String) × (String × String) × FieldId) :=
  (s.fieldAt? p).bind fun g => (s.link.1.fieldAt? p).bind fun g' => g'.ref?.bind fun r =>
    r.target.map fun id => ((g.name, g.core.displayName), (g'.name, g'.core.displayName), id)

/-- In `chainDocument` the reference of the message takes the name of `A`, and `B` the display name
of its target. -/
theorem names_of_chainDocument :
    ∃ s : Schema, s.Built ∧
      (∃ g' a', s.link.1.fieldAt? ⟨.slot [] (.message 0 0), []⟩ = some g' ∧
        s.link.1.arena.get? 0 = some a' ∧ g'.name = a'.name) ∧
      ∃ b' c', s.link.1.fieldAt? ⟨.arena 1, []⟩ = some b' ∧ s.link.1.arena.get? 2 = some c' ∧
        ∃ c, s.arena.get? 2 = some c ∧ b'.core.displayName = c.core.displayName := by
  have heval : (chain?.bind fun s => (s.namesAt? ⟨.slot [] (.message 0 0), []⟩).bind fun m =>
      (s.namesAt? ⟨.arena 1, []⟩).map fun b => (m, b)) =
      some ((("", ""), ("A", ""), 0), (("B", ""), ("B", "Counter"), 2)) := by decide +kernel
  simp only [namesAt?, Option.bind_eq_some_iff, Option.map_eq_some_iff, Prod.mk.injEq] at heval
  obtain ⟨s, hs, _, ⟨g, hg, g', hg', r, hr, id, hid, rfl⟩, _,
    ⟨b, hb, b', hb', q, hq, id', hid', rfl⟩, hnames, hnames'⟩ := heval
  simp only [Prod.mk.injEq] at hnames hnames'
  obtain ⟨⟨hname, -⟩, -, rfl⟩ := hnames
  obtain ⟨⟨-, hdisplay⟩, -, rfl⟩ := hnames'
  have hbuilt : s.Built := (Session.reachable_after _ _).built (by decide +kernel) s hs
  obtain ⟨_, a', -, ha', htakes, -⟩ :=
    (references_take_names s hbuilt).2 _ g g' r 0 hg hg' hr hid
  obtain ⟨c, c', hc, hc', -, hshows⟩ :=
    (references_take_names s hbuilt).2 _ b b' q 2 hb hb' hq hid'
  exact ⟨s, hbuilt, ⟨g', a', hg', ha', htakes hname⟩, b', c', hb', hc', c, hc,
    (hshows hdisplay).2.1 (Nat.lt_succ_self 1)⟩

/-- In `chainDocument` the display name of `A` is not that of its target `B`. -/
theorem displayName_of_chainDocument :
    ∃ s : Schema, s.Built ∧ ∃ p g g' r id t', s.fieldAt? p = some g ∧
      s.link.1.fieldAt? p = some g' ∧ g.core.displayName = "" ∧ g'.ref? = some r ∧
      r.target = some id ∧ s.link.1.arena.get? id = some t' ∧
      g'.core.displayName ≠ t'.core.displayName := by
  have heval : (chain?.bind fun s => (s.namesAt? ⟨.arena 0, []⟩).bind fun a =>
      (s.link.1.arena.get? 1).map fun t' => (a, t'.core.displayName)) =
      some ((("A", ""), ("A", ""), 1), "Counter") := by decide +kernel
  simp only [namesAt?, Option.bind_eq_some_iff, Option.map_eq_some_iff, Prod.mk.injEq] at heval
  obtain ⟨s, hs, _, ⟨g, hg, g', hg', r, hr, id, hid, rfl⟩, t', ht', hnames, hcounter⟩ := heval
  simp only [Prod.mk.injEq] at hnames
  obtain ⟨⟨-, hread⟩, ⟨-, hlinked⟩, rfl⟩ := hnames
  have hbuilt : s.Built := (Session.reachable_after _ _).built (by decide +kernel) s hs
  refine ⟨s, hbuilt, _, g, g', r, 1, t', hg, hg', hread, hr, hid, ht', ?_⟩
  rw [hlinked, hcounter]
  decide

end Schema

end WireSchema
