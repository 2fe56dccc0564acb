import WireSchema.Proofs.Namespace.Nesting

/-! # Changing the parts of namespaces

Binding references, completing fields and numbering messages change the interfaces, messages and
frames of all namespaces, one by one (`mapRefs_eq_mapParts`, `complete_fst_eq_mapParts`,
`mapMessages_eq_mapParts`). The fields listed in namespaces, the namespaces and their paths stay. -/

namespace WireSchema.Namespace

open Relation

/-- Changes of interfaces, messages and frames. -/
structure PartMap where
  interface : Interface → Interface
  message : Message → Message
  frame : Frame → Frame

mutual

/-- The namespace with its interfaces, messages and frames changed, and those of the namespaces
within. -/
def mapParts (g : PartMap) : Namespace → Namespace
  | ⟨name, externalRef, description, fields, interfaces, messages, frames, namespaces⟩ =>
    ⟨name, externalRef, description, fields, interfaces.map g.interface, messages.map g.message,
      frames.map g.frame, mapPartsIn g namespaces⟩

/-- The namespaces with their interfaces, messages and frames changed. -/
def mapPartsIn (g : PartMap) : List Namespace → List Namespace
  | [] => []
  | n :: ns => n.mapParts g :: mapPartsIn g ns

end

variable {g h : PartMap} {ns n : Namespace}

theorem mapPartsIn_eq_map (g : PartMap) (ns : List Namespace) :
    mapPartsIn g ns = ns.map (mapParts g) := by
  induction ns with
  | nil => simp [mapPartsIn]
  | cons n ns ih => simp [mapPartsIn, ih]

theorem mapParts_eq (g : PartMap) (ns : Namespace) :
    ns.mapParts g =
      { ns with
        interfaces := ns.interfaces.map g.interface
        messages := ns.messages.map g.message
        frames := ns.frames.map g.frame
        namespaces := ns.namespaces.map (mapParts g) } := by
  obtain ⟨name, externalRef, description, fields, interfaces, messages, frames, namespaces⟩ := ns
  rw [mapParts, mapPartsIn_eq_map]

@[simp] theorem name_mapParts (g : PartMap) (ns : Namespace) : (ns.mapParts g).name = ns.name := by
  rw [mapParts_eq]

@[simp] theorem externalRef_mapParts (g : PartMap) (ns : Namespace) :
    (ns.mapParts g).externalRef = ns.externalRef := by
  rw [mapParts_eq]

@[simp] theorem fields_mapParts (g : PartMap) (ns : Namespace) :
    (ns.mapParts g).fields = ns.fields := by
  rw [mapParts_eq]

@[simp] theorem interfaces_mapParts (g : PartMap) (ns : Namespace) :
    (ns.mapParts g).interfaces = ns.interfaces.map g.interface := by
  rw [mapParts_eq]

@[simp] theorem messages_mapParts (g : PartMap) (ns : Namespace) :
    (ns.mapParts g).messages = ns.messages.map g.message := by
  rw [mapParts_eq]

@[simp] theorem frames_mapParts (g : PartMap) (ns : Namespace) :
    (ns.mapParts g).frames = ns.frames.map g.frame := by
  rw [mapParts_eq]

@[simp] theorem namespaces_mapParts (g : PartMap) (ns : Namespace) :
    (ns.mapParts g).namespaces = ns.namespaces.map (mapParts g) := by
  rw [mapParts_eq]

/-- **The namespaces within are changed in the same way.** -/
theorem within_mapParts_iff :
    n.Within (ns.mapParts g) ↔ ∃ m : Namespace, m.Within ns ∧ n = m.mapParts g := by
  constructor
  · intro hn
    induction hn with
    | refl => exact ⟨ns, ReflTransGen.refl, rfl⟩
    | tail _ hc ih =>
      obtain ⟨m, hm, rfl⟩ := ih
      rw [namespaces_mapParts, List.mem_map] at hc
      obtain ⟨c, hc, rfl⟩ := hc
      exact ⟨c, hm.tail hc, rfl⟩
  · rintro ⟨m, hm, rfl⟩
    induction hm with
    | refl => exact ReflTransGen.refl
    | tail _ hc ih =>
      refine ih.tail ?_
      rw [namespaces_mapParts]
      exact List.mem_map_of_mem hc

/-! ### One change after the other -/

/-- First one change, and then another one. -/
def PartMap.andThen (g h : PartMap) : PartMap :=
  ⟨h.interface ∘ g.interface, h.message ∘ g.message, h.frame ∘ g.frame⟩

theorem mapParts_mapParts (g h : PartMap) (ns : Namespace) :
    (ns.mapParts g).mapParts h = ns.mapParts (g.andThen h) := by
  induction ns using nested_induction with
  | step ns ih =>
    have hnested : ns.namespaces.map (mapParts h ∘ mapParts g) =
        ns.namespaces.map (mapParts (g.andThen h)) := List.map_congr_left ih
    rw [mapParts_eq g ns, mapParts_eq (g.andThen h) ns, mapParts_eq h]
    simp only [List.map_map, hnested]
    rfl

/-! ### The changes of linking -/

/-- The change of all references. -/
def refsMap (g : FieldRef → FieldRef) : PartMap where
  interface i := { i with fields := mapMemberRefs g i.fields }
  message m := { m with fields := mapMemberRefs g m.fields }
  frame f := { f with layers := f.layers.map (·.mapRefs g) }

/-- The completion of all fields. -/
def completeMap (a : Arena) : PartMap where
  interface i := (completeInterface a i).1
  message m := (completeMessage a m).1
  frame f := (completeFrame a f).1

/-- A change of messages only. -/
def messageMap (g : Message → Message) : PartMap := ⟨id, g, id⟩

theorem mapRefs_eq_mapParts (g : FieldRef → FieldRef) (ns : Namespace) :
    ns.mapRefs g = ns.mapParts (refsMap g) := by
  induction ns using nested_induction with
  | step ns ih =>
    obtain ⟨name, externalRef, description, fields, interfaces, messages, frames, namespaces⟩ := ns
    rw [mapRefs, mapParts, mapRefsIn_eq_map, mapPartsIn_eq_map, List.map_congr_left ih]
    rfl

theorem complete_fst_eq_mapParts (a : Arena) (ns : Namespace) :
    (ns.complete a).1 = ns.mapParts (completeMap a) := by
  induction ns using nested_induction with
  | step ns ih =>
    obtain ⟨name, externalRef, description, fields, interfaces, messages, frames, namespaces⟩ := ns
    rw [complete, mapParts, completeIn_fst, mapPartsIn_eq_map, List.map_congr_left ih]
    rfl

theorem mapMessages_eq_mapParts (g : Message → Message) (ns : Namespace) :
    ns.mapMessages g = ns.mapParts (messageMap g) := by
  induction ns using nested_induction with
  | step ns ih =>
    obtain ⟨name, externalRef, description, fields, interfaces, messages, frames, namespaces⟩ := ns
    rw [mapMessages, mapParts, mapMessagesIn_eq_map, mapPartsIn_eq_map, List.map_congr_left ih]
    simp [messageMap]

/-! ### Names and paths -/

/-- The change leaves names and paths as they are. -/
structure PartMap.KeepsPaths (g : PartMap) : Prop where
  interface : ∀ i, (g.interface i).name = i.name ∧ (g.interface i).externalRef = i.externalRef
  message : ∀ m, (g.message m).name = m.name ∧ (g.message m).externalRef = m.externalRef
  frame : ∀ f, (g.frame f).name = f.name ∧ (g.frame f).externalRef = f.externalRef

theorem PartMap.KeepsPaths.andThen (hg : g.KeepsPaths) (hh : h.KeepsPaths) :
    (g.andThen h).KeepsPaths where
  interface i := ⟨(hh.interface _).1.trans (hg.interface i).1,
    (hh.interface _).2.trans (hg.interface i).2⟩
  message m := ⟨(hh.message _).1.trans (hg.message m).1, (hh.message _).2.trans (hg.message m).2⟩
  frame f := ⟨(hh.frame _).1.trans (hg.frame f).1, (hh.frame _).2.trans (hg.frame f).2⟩

theorem keepsPaths_refsMap (g : FieldRef → FieldRef) : (refsMap g).KeepsPaths :=
  ⟨fun _ => ⟨rfl, rfl⟩, fun _ => ⟨rfl, rfl⟩, fun _ => ⟨rfl, rfl⟩⟩

theorem keepsPaths_completeMap (a : Arena) : (completeMap a).KeepsPaths :=
  ⟨fun _ => ⟨rfl, rfl⟩, fun _ => ⟨rfl, rfl⟩, fun _ => ⟨rfl, rfl⟩⟩

theorem keepsPaths_messageMap {g : Message → Message}
    (hg : ∀ m, (g m).name = m.name ∧ (g m).externalRef = m.externalRef) :
    (messageMap g).KeepsPaths :=
  ⟨fun _ => ⟨rfl, rfl⟩, hg, fun _ => ⟨rfl, rfl⟩⟩

/-! ### Fields -/

/-- The change does `step` to each field of an interface or message, and of a layer. -/
structure PartMap.Acts (g : PartMap) (step : Field → Field) : Prop where
  interface : ∀ i, (g.interface i).fields = i.fields.map step
  message : ∀ m, (g.message m).fields = m.fields.map step
  frame : ∀ fr, ∀ l' ∈ (g.frame fr).layers, ∀ f', l'.field = some (.inline f') →
    ∃ l ∈ fr.layers, ∃ f, l.field = some (.inline f) ∧ f' = step f

theorem PartMap.Acts.andThen {step step' : Field → Field} (hg : g.Acts step) (hh : h.Acts step') :
    (g.andThen h).Acts (step' ∘ step) where
  interface i := by
    rw [← List.map_map, ← hg.interface]
    exact hh.interface _
  message m := by
    rw [← List.map_map, ← hg.message]
    exact hh.message _
  frame fr l'' hl'' f'' hf'' := by
    obtain ⟨l', hl', f', hf', rfl⟩ := hh.frame _ l'' hl'' f'' hf''
    obtain ⟨l, hl, f, hf, rfl⟩ := hg.frame _ l' hl' f' hf'
    exact ⟨l, hl, f, hf, rfl⟩

theorem acts_refsMap (g : FieldRef → FieldRef) : (refsMap g).Acts (Field.mapRefs g) where
  interface i := mapMemberRefs_eq_map g i.fields
  message m := mapMemberRefs_eq_map g m.fields
  frame fr l' hl' f' hf' := by
    obtain ⟨l, hl, rfl⟩ := List.mem_map.mp hl'
    obtain ⟨p, hp, hpart⟩ := Option.map_eq_some_iff.mp hf'
    cases p with
    | reference r => cases hpart
    | inline f =>
      cases hpart
      exact ⟨l, hl, f, hp, rfl⟩

theorem acts_completeMap (a : Arena) : (completeMap a).Acts fun f => (f.complete a).1 where
  interface i := completeMembers_fst a i.fields
  message m := completeMembers_fst a m.fields
  frame fr l' hl' f' hf' := by
    obtain ⟨l, hl, rfl⟩ := List.mem_map.mp hl'
    unfold completeLayer at hf'
    split at hf'
    · rename_i f hf
      cases hf'
      exact ⟨l, hl, f, hf, rfl⟩
    · rename_i hnot
      exact absurd hf' (hnot f')

theorem acts_messageMap {g : Message → Message} (hg : ∀ m, (g m).fields = m.fields) :
    (messageMap g).Acts id where
  interface _ := (List.map_id _).symm
  message m := (hg m).trans (List.map_id _).symm
  frame _ l hl f hf := ⟨l, hl, f, hf, rfl⟩

/-- **The fields of a changed namespace are changed fields.** -/
theorem PartMap.Acts.hasField {step : Field → Field} (hg : g.Acts step) {f' : Field}
    (hf' : (ns.mapParts g).HasField f') : ∃ f, ns.HasField f ∧ f' = step f := by
  rcases hf' with ⟨m', hm', hf'⟩ | ⟨i', hi', hf'⟩ | ⟨fr', hfr', l', hl', hf'⟩
  · rw [messages_mapParts] at hm'
    obtain ⟨m, hm, rfl⟩ := List.mem_map.mp hm'
    rw [hg.message] at hf'
    obtain ⟨f, hf, rfl⟩ := List.mem_map.mp hf'
    exact ⟨f, Or.inl ⟨m, hm, hf⟩, rfl⟩
  · rw [interfaces_mapParts] at hi'
    obtain ⟨i, hi, rfl⟩ := List.mem_map.mp hi'
    rw [hg.interface] at hf'
    obtain ⟨f, hf, rfl⟩ := List.mem_map.mp hf'
    exact ⟨f, Or.inr (Or.inl ⟨i, hi, hf⟩), rfl⟩
  · rw [frames_mapParts] at hfr'
    obtain ⟨fr, hfr, rfl⟩ := List.mem_map.mp hfr'
    obtain ⟨l, hl, f, hf, rfl⟩ := hg.frame fr l' hl' f' hf'
    exact ⟨f, Or.inr (Or.inr ⟨fr, hfr, l, hl, hf⟩), rfl⟩

end WireSchema.Namespace
