import WireSchema.Proofs.Field.Windows
import WireSchema.Proofs.Schema.Fields

/-! # The windows of a schema

Whatever documents declare sits in the window of its parent, and that of a declaration which has no
parent begins within the schema (`Built.sitsIn`). Linking changes no window (`Built.sitsIn_link`).
-/

namespace WireSchema

open Markup Relation

/-! ### Declarations that are read -/

theorem Message.inside_of_read {ctx : Context} {e : Element} :
    (Message.read ctx e).Yields fun m => m.window.Inside .always ctx.schemaVersion := by
  unfold Message.read
  refine Pass.yields_bind fun _ => Pass.yields_bind fun _ => Pass.yields_bind fun _ => ?_
  refine Pass.yields_bind fun _ => ?_
  refine (Pass.yields_liftM fun w h => Window.inside_of_read h).bind fun window hwindow => ?_
  refine Pass.yields_bind fun _ => Pass.yields_bind fun _ => Pass.yields_bind fun _ => ?_
  refine Pass.yields_bind fun _ => Pass.yields_bind fun _ => Pass.yields_bind fun _ => ?_
  exact Pass.yields_pure hwindow

theorem Message.sitsIn_of_read {ctx : Context} {e : Element} :
    (Message.read ctx e).Yields fun m =>
      (Versioned.message m).SitsIn .always ctx.schemaVersion := by
  intro m hm
  refine Versioned.sitsIn_iff.mpr ⟨Message.inside_of_read m hm, ?_⟩
  exact List.forall_mem_map.mpr (Message.forall_fields_of_read (givesIn_readField ctx) m hm)

namespace Schema

variable {s : Schema} {x : Versioned}

/-! ### Schemas -/

/-- The part is a message of a namespace, or a field in the arena, or one of a message, an interface
or a layer. -/
def Declares (s : Schema) : Versioned → Prop
  | .message m => ∃ n : Namespace, n.Within s.root ∧ m ∈ n.messages
  | .field f => s.HasField f
  | _ => False

/-- The part is declared so, or it stands inside of such a part at any depth. -/
def HasPart (s : Schema) (x : Versioned) : Prop := ∃ y, s.Declares y ∧ x.Within y

/-- The windows of a namespace are each inside of that of the parent. -/
abbrev WindowsNest (version : Nat) : Namespace → Prop :=
  Namespace.AllParts (fun i => ∀ f ∈ i.fields, (Versioned.field f).SitsIn .always version)
    (fun m => (Versioned.message m).SitsIn .always version)
    fun fr => ∀ l ∈ fr.layers, ∀ f, l.field = some (.inline f) →
      (Versioned.field f).SitsIn .always version

theorem upkeep_windowsNest (version : Nat) : Namespace.Upkeep version (WindowsNest version) := by
  refine Namespace.upkeep_allParts ?_ ?_ ?_ <;> rintro ctx e rfl
  · exact Interface.forall_fields_of_read (givesIn_readField ctx)
  · exact Message.sitsIn_of_read
  · exact Frame.forall_field_of_read (givesIn_readField ctx)

/-- **Whatever documents declare sits in the window of its parent.** -/
theorem Built.sitsIn (h : s.Built) (hx : s.Declares x) : x.SitsIn .always s.version := by
  have hroot := h.everywhere (upkeep_windowsNest s.version)
  have harena := h.forall_arena (P := fun f => (Versioned.field f).SitsIn .always s.version)
    fun ctx levels e hversion => by
      rw [← hversion]
      exact yields_sitsIn_readMerged (givesIn_readField ctx levels) .inNamespace e
  cases x with
  | message m =>
    obtain ⟨n, hn, hm⟩ := hx
    exact (hroot n hn).message m hm
  | field f =>
    rcases hx with ⟨i, hi⟩ | ⟨n, hn, ⟨m, hm, hf⟩ | ⟨i, hi, hf⟩ | ⟨fr, hfr, l, hl, hf⟩⟩
    · exact harena i f hi
    · obtain ⟨hinside, hall⟩ := Versioned.sitsIn_iff.mp ((hroot n hn).message m hm)
      exact (hall _ (List.mem_map_of_mem hf)).mono hinside
    · exact (hroot n hn).interface i hi f hf
    · exact (hroot n hn).frame fr hfr l hl f hf
  | integer | real | bit => exact hx.elim

/-! ### Linked schemas -/

theorem sitsIn_mapRefs_iff {parent : Window} {version : Nat} (g : FieldRef → FieldRef)
    (f : Field) : (Versioned.field (f.mapRefs g)).SitsIn parent version ↔
      (Versioned.field f).SitsIn parent version := by
  refine Versioned.sitsIn_field_iff_of_inner (fun f => ?_) (fun f => ?_) (Field.inner_mapRefs g) f
  · rw [Field.window, Field.core_mapRefs]
    rfl
  · obtain ⟨core, body⟩ := f
    cases body with
    | list element count c l el fixed => cases element <;> rfl
    | _ => rfl

theorem sitsIn_complete_iff {parent : Window} {version : Nat} (a : Arena) (f : Field) :
    (Versioned.field (f.complete a).1).SitsIn parent version ↔
      (Versioned.field f).SitsIn parent version := by
  refine Versioned.sitsIn_field_iff_of_inner (fun f => ?_) (fun f => ?_) (Field.inner_complete a) f
  · obtain ⟨core, body⟩ := f
    cases body with
    | ref target bitLength =>
      simp only [Field.complete, Field.window, Field.core, FieldCore.nameAfter]
      split <;> rfl
    | list element count c l el fixed => cases element <;> rfl
    | _ => rfl
  · obtain ⟨core, body⟩ := f
    cases body with
    | list element count c l el fixed => cases element <;> rfl
    | _ => rfl

/-- Linking changes no window of a message and of what is in it. -/
theorem sitsIn_message_linkMap {version : Nat} {m : Message}
    (h : (Versioned.message m).SitsIn .always version) :
    (Versioned.message (s.linkMap.message m)).SitsIn .always version := by
  obtain ⟨g, a, hacts⟩ := s.acts_linkMap
  obtain ⟨hinside, hall⟩ := Versioned.sitsIn_iff.mp h
  refine Versioned.sitsIn_iff.mpr ⟨hinside, ?_⟩
  simp only [Versioned.inner, hacts.message, List.map_map, List.forall_mem_map,
    Function.comp_apply]
  intro f hf
  exact (sitsIn_complete_iff a _).mpr ((sitsIn_mapRefs_iff g f).mpr
    (hall _ (List.mem_map_of_mem hf)))

/-- **Whatever a linked schema declares sits in the window of its parent.** -/
theorem Built.sitsIn_link (h : s.Built) (hx : s.link.1.Declares x) :
    x.SitsIn .always s.version := by
  cases x with
  | message m =>
    obtain ⟨n, hn, hm⟩ := hx
    have hroot : s.root.Everywhere fun n =>
        ∀ m ∈ n.messages, (Versioned.message m).SitsIn .always s.version :=
      fun n hn m hm => h.sitsIn ⟨n, hn, hm⟩
    have hlink : s.link.1.root.Everywhere fun n =>
        ∀ m ∈ n.messages, (Versioned.message m).SitsIn .always s.version := by
      refine everywhere_link (fun n hn => ?_) (fun n hn => ?_) hroot
      · rw [Namespace.messages_mapParts]
        exact List.forall_mem_map.mpr fun m hm => sitsIn_message_linkMap (hn m hm)
      · unfold Namespace.addDefaultInterface
        split_ifs <;> exact hn
    exact hlink n hn m hm
  | field f =>
    exact forall_hasField_link sitsIn_mapRefs_iff sitsIn_complete_iff
      (fun f hf => h.sitsIn (x := .field f) hf) f hx
  | integer | real | bit => exact hx.elim

end Schema

end WireSchema
