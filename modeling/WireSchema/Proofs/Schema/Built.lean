import WireSchema.Proofs.Namespace.Extension
import WireSchema.Proofs.Namespace.Upkeep
import WireSchema.Schema.Basic

/-! # Schemas built from documents

A schema that documents build lists each place of its arena once, under the path of the field there
(`Built.indexed`). A path leads to the one field that has it (`Built.findField?_eq_some_iff`). What
is kept up holds of all of its namespaces (`Built.everywhere`). -/

namespace WireSchema.Schema

open Markup

/-- Documents build the schema: the first one is read, and each adds its content. -/
inductive Built : Schema → Prop
  | read {e : Element} {s : Schema} (h : (Schema.read e).result = .ok s) : Built s
  | add {s : Schema} (e : Element) (h : Built s) : Built (s.addDocument e).schema

/-- The namespaces are orderly, and list each place of the arena once. -/
structure Indexed (s : Schema) : Prop where
  externalRef : s.root.externalRef = ""
  orderly : s.root.AllOrderly s.arena
  listed : s.root.allFields.Perm (List.range s.arena.size)

theorem read_eq_ok {e : Element} {s : Schema} (h : (Schema.read e).result = .ok s) :
    s.root = .root ∧ s.catalogue = ⟨.empty, []⟩ := by
  obtain ⟨_, -, h⟩ := Pass.result_bind_eq_ok.mp h
  obtain ⟨_, -, h⟩ := Pass.result_bind_eq_ok.mp h
  obtain ⟨_, -, h⟩ := Pass.result_bind_eq_ok.mp h
  obtain ⟨_, -, h⟩ := Pass.result_bind_eq_ok.mp h
  obtain ⟨_, -, h⟩ := Pass.result_bind_eq_ok.mp h
  obtain ⟨_, -, h⟩ := Pass.result_bind_eq_ok.mp h
  obtain ⟨_, -, h⟩ := Pass.result_bind_eq_ok.mp h
  obtain ⟨_, -, h⟩ := Pass.result_bind_eq_ok.mp h
  obtain ⟨_, -, h⟩ := Pass.result_bind_eq_ok.mp h
  rw [Pass.result_pure, Except.ok.injEq] at h
  subst h
  exact ⟨rfl, rfl⟩

theorem indexed_of_read {e : Element} {s : Schema} (h : (Schema.read e).result = .ok s) :
    s.Indexed := by
  obtain ⟨hroot, hcatalogue⟩ := read_eq_ok h
  refine ⟨by rw [hroot]; rfl, ?_, ?_⟩
  · rw [hroot]
    exact Namespace.allOrderly_empty _ _ _
  · unfold arena
    rw [hroot, hcatalogue]
    simp [Namespace.root, Namespace.allFields_empty, Arena.empty, Arena.size]

theorem Indexed.addDocument {s : Schema} (h : s.Indexed) (e : Element) :
    (s.addDocument e).schema.Indexed := by
  unfold Schema.addDocument
  dsimp only
  split_ifs with hname
  · exact h
  · have hext := Population.extends_add ⟨s.version, s.endian⟩ properties ⟨s.root, s.catalogue⟩ e
    refine ⟨hext.externalRef.trans h.externalRef, hext.orderly h.orderly, ?_⟩
    have hlisted := hext.listed h.orderly
    have hswap := hlisted.trans ((h.listed.append_right _).trans List.perm_append_comm)
    exact (List.perm_append_right_iff _).mp hswap

/-- **Documents build schemas that list each place of the arena once, under its path.** -/
theorem Built.indexed {s : Schema} (h : s.Built) : s.Indexed := by
  induction h with
  | read h => exact indexed_of_read h
  | add e _ ih => exact ih.addDocument e

theorem Indexed.findField?_eq_some_iff {s : Schema} (h : s.Indexed) {path : String}
    {id : FieldId} :
    s.root.findField? path = some id ↔ ∃ f, s.arena.get? id = some f ∧ f.externalRef = path :=
  Namespace.findField?_eq_some_iff h.orderly h.externalRef fun _ hid =>
    h.listed.mem_iff.mpr (List.mem_range.mpr hid)

/-! ### Namespaces -/

@[simp] theorem version_addDocument (s : Schema) (e : Element) :
    (s.addDocument e).schema.version = s.version := by
  unfold Schema.addDocument
  dsimp only
  split_ifs <;> rfl

/-- **What is kept up holds of all namespaces that documents build.** -/
theorem Built.everywhere {s : Schema} {R : Namespace → Prop} (hR : Namespace.Upkeep s.version R)
    (h : s.Built) : s.root.Everywhere R := by
  induction h with
  | read h =>
    rw [(read_eq_ok h).1]
    exact hR.everywhere_empty _ _
  | add e _ ih =>
    rw [version_addDocument] at hR
    have hs := ih hR
    unfold Schema.addDocument
    dsimp only
    split_ifs
    · exact hs
    · exact hR.add _ _ hs

end WireSchema.Schema
