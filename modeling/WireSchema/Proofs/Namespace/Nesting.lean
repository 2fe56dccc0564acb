import WireSchema.Namespace.Traversal
import WireSchema.Proofs.Field.Nesting

/-! # Namespaces inside namespaces

`Namespace.refs` lists the references that the messages, interfaces and frames of a namespace and of
those within it hold, at any depth (`mem_refs_iff`). Changing references changes the list item by
item (`refs_mapRefs`); completing fields and numbering messages do not change it. -/

namespace WireSchema

open Relation

/-! ### Parts and layers -/

theorem Part.refs_mapRefs (g : FieldRef → FieldRef) (p : Part) :
    (p.mapRefs g).refs = p.refs.map g := by
  cases p with
  | inline f => exact Field.refs_mapRefs g f
  | reference r => rfl

theorem Layer.refs_mapRefs (g : FieldRef → FieldRef) (l : Layer) :
    (l.mapRefs g).refs = l.refs.map g := by
  unfold Layer.refs Layer.mapRefs
  cases l.field with
  | none => rfl
  | some p => exact p.refs_mapRefs g

theorem Layer.refs_completeLayer (a : Arena) (l : Layer) :
    (Namespace.completeLayer a l).1.refs = l.refs := by
  obtain ⟨name, description, kind, field, line⟩ := l
  rcases field with _ | p
  · rfl
  · cases p with
    | reference r => rfl
    | inline f => exact Field.refs_complete a f

theorem memberRefs_mapMemberRefs_eq (g : FieldRef → FieldRef) (fs : List Field) :
    memberRefs (mapMemberRefs g fs) = (memberRefs fs).map g :=
  memberRefs_mapMemberRefs fun f _ => Field.refs_mapRefs g f

theorem memberRefs_completeMembers_eq (a : Arena) (fs : List Field) :
    memberRefs (completeMembers a fs).1 = memberRefs fs :=
  memberRefs_completeMembers fun f _ => Field.refs_complete a f

namespace Namespace

/-- `n` is `ns`, or it is nested in `ns` at any depth. -/
def Within (n ns : Namespace) : Prop := ReflTransGen (fun x y => y ∈ x.namespaces) ns n

/-- The field is one of a message, of an interface or of a layer of the namespace itself. -/
def HasField (ns : Namespace) (f : Field) : Prop :=
  (∃ m ∈ ns.messages, f ∈ m.fields) ∨ (∃ i ∈ ns.interfaces, f ∈ i.fields) ∨
    ∃ frame ∈ ns.frames, ∃ l ∈ frame.layers, l.field = some (.inline f)

/-- The reference stands for the field of a layer of the namespace itself. -/
def HasLayerRef (ns : Namespace) (r : FieldRef) : Prop :=
  ∃ frame ∈ ns.frames, ∃ l ∈ frame.layers, l.field = some (.reference r)

/-- The references in the messages, interfaces and frames of the namespace itself. -/
def localRefs (ns : Namespace) : List FieldRef :=
  ns.messages.flatMap (fun m => memberRefs m.fields) ++
    (ns.interfaces.flatMap (fun i => memberRefs i.fields) ++
      ns.frames.flatMap fun f => f.layers.flatMap Layer.refs)

theorem sizeOf_of_mem_namespaces {ns n : Namespace} (h : n ∈ ns.namespaces) :
    sizeOf n < sizeOf ns := by
  obtain ⟨name, externalRef, description, fields, interfaces, messages, frames, namespaces⟩ := ns
  have : sizeOf n < sizeOf namespaces := List.sizeOf_lt_of_mem h
  rw [Namespace.mk.sizeOf_spec]
  omega

/-- Induction on namespaces: what holds of a namespace when it holds of the ones directly inside,
holds of every namespace. -/
@[elab_as_elim]
theorem nested_induction {P : Namespace → Prop}
    (step : ∀ ns : Namespace, (∀ n ∈ ns.namespaces, P n) → P ns) (ns : Namespace) : P ns :=
  step ns fun n _ => nested_induction step n
termination_by sizeOf ns
decreasing_by exact sizeOf_of_mem_namespaces ‹_›

/-- A list of what a namespace has itself, and then of what the nested ones have, is a list of what
all namespaces within have. -/
theorem mem_flattened_iff {α : Type} {own all : Namespace → List α}
    (hall : ∀ ns, all ns = own ns ++ ns.namespaces.flatMap all) {ns : Namespace} {x : α} :
    x ∈ all ns ↔ ∃ n : Namespace, n.Within ns ∧ x ∈ own n := by
  constructor
  · induction ns using nested_induction with
    | step ns ih =>
      intro h
      rw [hall, List.mem_append, List.mem_flatMap] at h
      rcases h with h | ⟨c, hc, h⟩
      · exact ⟨ns, ReflTransGen.refl, h⟩
      · obtain ⟨n, hn, hx⟩ := ih c hc h
        exact ⟨n, ReflTransGen.head hc hn, hx⟩
  · rintro ⟨n, hn, hx⟩
    unfold Within at hn
    induction hn using ReflTransGen.head_induction_on with
    | refl =>
      rw [hall, List.mem_append]
      exact Or.inl hx
    | head hc _ ih =>
      rw [hall, List.mem_append, List.mem_flatMap]
      exact Or.inr ⟨_, hc, ih⟩

/-! ### The list of references -/

theorem refsIn_eq_flatMap (ns : List Namespace) : refsIn ns = ns.flatMap refs := by
  induction ns with
  | nil => simp [refsIn]
  | cons n ns ih => simp [refsIn, ih]

theorem refs_eq (ns : Namespace) : ns.refs = ns.localRefs ++ ns.namespaces.flatMap refs := by
  obtain ⟨name, externalRef, description, fields, interfaces, messages, frames, namespaces⟩ := ns
  simp only [refs, localRefs, refsIn_eq_flatMap, List.append_assoc]

theorem mem_localRefs {ns : Namespace} {r : FieldRef} :
    r ∈ ns.localRefs ↔ (∃ f : Field, ns.HasField f ∧ f.Holds r) ∨ ns.HasLayerRef r := by
  have hlayer : ∀ l : Layer, r ∈ l.refs ↔
      (∃ f, l.field = some (.inline f) ∧ f.Holds r) ∨ l.field = some (.reference r) := by
    intro l
    unfold Layer.refs
    rcases l.field with _ | p
    · simp
    · cases p with
      | inline f => simp [Part.refs, Field.mem_refs_iff_holds]
      | reference r' => simp [Part.refs, eq_comm]
  simp only [localRefs, List.mem_append, List.mem_flatMap, memberRefs_eq_flatMap,
    Field.mem_refs_iff_holds, hlayer]
  constructor
  · rintro (⟨m, hm, f, hf, hr⟩ | ⟨i, hi, f, hf, hr⟩ | ⟨fr, hfr, l, hl, ⟨f, hf, hr⟩ | hr⟩)
    · exact Or.inl ⟨f, Or.inl ⟨m, hm, hf⟩, hr⟩
    · exact Or.inl ⟨f, Or.inr (Or.inl ⟨i, hi, hf⟩), hr⟩
    · exact Or.inl ⟨f, Or.inr (Or.inr ⟨fr, hfr, l, hl, hf⟩), hr⟩
    · exact Or.inr ⟨fr, hfr, l, hl, hr⟩
  · rintro (⟨f, ⟨m, hm, hf⟩ | ⟨i, hi, hf⟩ | ⟨fr, hfr, l, hl, hf⟩, hr⟩ | ⟨fr, hfr, l, hl, hr⟩)
    · exact Or.inl ⟨m, hm, f, hf, hr⟩
    · exact Or.inr (Or.inl ⟨i, hi, f, hf, hr⟩)
    · exact Or.inr (Or.inr ⟨fr, hfr, l, hl, Or.inl ⟨f, hf, hr⟩⟩)
    · exact Or.inr (Or.inr ⟨fr, hfr, l, hl, Or.inr hr⟩)

/-- **The list holds the references of all namespaces within**, and no others. -/
theorem mem_refs_iff {ns : Namespace} {r : FieldRef} :
    r ∈ ns.refs ↔ ∃ n : Namespace, n.Within ns ∧
      ((∃ f : Field, n.HasField f ∧ f.Holds r) ∨ n.HasLayerRef r) := by
  simp only [← mem_localRefs]
  exact mem_flattened_iff refs_eq

/-! ### Steps that change a namespace -/

theorem mapRefsIn_eq_map (g : FieldRef → FieldRef) (ns : List Namespace) :
    mapRefsIn g ns = ns.map (mapRefs g) := by
  induction ns with
  | nil => simp [mapRefsIn]
  | cons n ns ih => simp [mapRefsIn, ih]

mutual

/-- The namespace with its messages changed. -/
def mapMessages (g : Message → Message) : Namespace → Namespace
  | ⟨name, externalRef, description, fields, interfaces, messages, frames, namespaces⟩ =>
    ⟨name, externalRef, description, fields, interfaces, messages.map g, frames,
      mapMessagesIn g namespaces⟩

/-- The namespaces with their messages changed. -/
def mapMessagesIn (g : Message → Message) : List Namespace → List Namespace
  | [] => []
  | n :: ns => n.mapMessages g :: mapMessagesIn g ns

end

theorem mapMessagesIn_eq_map (g : Message → Message) (ns : List Namespace) :
    mapMessagesIn g ns = ns.map (mapMessages g) := by
  induction ns with
  | nil => simp [mapMessagesIn]
  | cons n ns ih => simp [mapMessagesIn, ih]

theorem completeIn_fst (a : Arena) (ns : List Namespace) :
    (completeIn a ns).1 = ns.map fun n => (n.complete a).1 := by
  induction ns with
  | nil => simp [completeIn]
  | cons n ns ih => simp [completeIn, ih]

theorem refs_mapRefs (g : FieldRef → FieldRef) (ns : Namespace) :
    (ns.mapRefs g).refs = ns.refs.map g := by
  induction ns using nested_induction with
  | step ns ih =>
    obtain ⟨name, externalRef, description, fields, interfaces, messages, frames, namespaces⟩ :=
      ns
    simp only [refs, mapRefs, refsIn_eq_flatMap, mapRefsIn_eq_map, List.map_append,
      List.map_flatMap, List.flatMap_map, memberRefs_mapMemberRefs_eq, Layer.refs_mapRefs]
    rw [List.flatMap_congr ih]

theorem refs_complete (a : Arena) (ns : Namespace) : (ns.complete a).1.refs = ns.refs := by
  induction ns using nested_induction with
  | step ns ih =>
    obtain ⟨name, externalRef, description, fields, interfaces, messages, frames, namespaces⟩ :=
      ns
    simp only [refs, complete, collect, completeMessage, completeInterface, completeFrame,
      refsIn_eq_flatMap, completeIn_fst, List.flatMap_map, memberRefs_completeMembers_eq,
      Layer.refs_completeLayer]
    rw [List.flatMap_congr ih]

theorem refs_mapMessages {g : Message → Message} (hg : ∀ m, (g m).fields = m.fields)
    (ns : Namespace) : (ns.mapMessages g).refs = ns.refs := by
  induction ns using nested_induction with
  | step ns ih =>
    obtain ⟨name, externalRef, description, fields, interfaces, messages, frames, namespaces⟩ :=
      ns
    simp only [refs, mapMessages, refsIn_eq_flatMap, mapMessagesIn_eq_map, List.flatMap_map, hg]
    rw [List.flatMap_congr ih]

theorem refs_addDefaultInterface (ns : Namespace) : ns.addDefaultInterface.refs = ns.refs := by
  unfold addDefaultInterface
  split_ifs
  · rfl
  · simp [refs_eq, localRefs, Interface.default, memberRefs]

end Namespace

end WireSchema
