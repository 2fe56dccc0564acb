import WireSchema.Proofs.Field.Turns
import WireSchema.Proofs.Schema.Fields

/-! # Places of fields

A place says where a field stands in a schema: its site is a place in the arena or a slot of a
namespace, and a path leads from the field of the site to one inside of it. Each field that the
schema contains has a place (`contains_iff_exists_fieldAt?`). Linking binds the references of the
field at a place and then completes it in the arena that its site sees (`fieldAt?_link`), and it
does nothing else. -/

namespace WireSchema

open Relation

/-! ### Walks -/

/-- What a walk from `x` comes to. Each number is a position among what comes next. -/
def walk? {α : Type} (next : α → List α) : List Nat → α → Option α
  | [], x => some x
  | k :: path, x => (next x)[k]?.bind (walk? next path)

section
variable {α : Type} {next : α → List α} {x y : α}

theorem reflTransGen_iff_exists_walk? :
    ReflTransGen (fun x y => y ∈ next x) x y ↔ ∃ path, walk? next path x = some y := by
  constructor
  · intro h
    induction h using ReflTransGen.head_induction_on with
    | refl => exact ⟨[], rfl⟩
    | head hnext _ ih =>
      obtain ⟨k, hk⟩ := List.mem_iff_getElem?.mp hnext
      obtain ⟨path, hpath⟩ := ih
      exact ⟨k :: path, by rw [walk?, hk, Option.bind_some, hpath]⟩
  · rintro ⟨path, h⟩
    induction path generalizing x with
    | nil =>
      cases h
      exact ReflTransGen.refl
    | cons k path ih =>
      obtain ⟨z, hz, h⟩ := Option.bind_eq_some_iff.mp h
      exact ReflTransGen.head (List.mem_of_getElem? hz) (ih h)

/-- A change of all that comes next changes what walks come to. -/
theorem walk?_of_next {step : α → α} (h : ∀ x, next (step x) = (next x).map step)
    (path : List Nat) (x : α) : walk? next path (step x) = (walk? next path x).map step := by
  induction path generalizing x with
  | nil => rfl
  | cons k path ih =>
    rw [walk?, walk?, h, List.getElem?_map, Option.bind_map, Option.map_bind]
    exact congrArg _ (funext ih)

theorem exists_bind_getElem? {β : Type} {xs : List α} (find : α → Option β) {b : β} :
    (∃ k : Nat, xs[k]?.bind find = some b) ↔ ∃ x ∈ xs, find x = some b := by
  simp only [Option.bind_eq_some_iff, List.mem_iff_getElem?]
  exact ⟨fun ⟨k, x, hk, hx⟩ => ⟨x, ⟨k, hk⟩, hx⟩, fun ⟨x, ⟨k, hk⟩, hx⟩ => ⟨k, x, hk, hx⟩⟩

end

/-- The field that the path leads to, through the fields inside. -/
def Field.at? (f : Field) (path : List Nat) : Option Field := walk? Field.inner path f

theorem Field.within_iff_exists_at? {f g : Field} : g.Within f ↔ ∃ path, f.at? path = some g :=
  reflTransGen_iff_exists_walk?

/-! ### Fields of a namespace -/

/-- The field of the layer, if it is declared inside. -/
def Layer.inline? (l : Layer) : Option Field :=
  match l.field with
  | some (.inline f) => some f
  | _ => none

theorem Layer.inline?_eq_some {l : Layer} {f : Field} :
    l.inline? = some f ↔ l.field = some (.inline f) := by
  unfold Layer.inline?
  split <;> simp_all

theorem Layer.inline?_mapRefs (g : FieldRef → FieldRef) (l : Layer) :
    (l.mapRefs g).inline? = l.inline?.map (Field.mapRefs g) := by
  obtain ⟨name, description, kind, field, line⟩ := l
  rcases field with _ | _ | _ <;> rfl

theorem Layer.inline?_completeLayer (a : Arena) (l : Layer) :
    (Namespace.completeLayer a l).1.inline? = l.inline?.map fun f => (f.complete a).1 := by
  obtain ⟨name, description, kind, field, line⟩ := l
  rcases field with _ | _ | _ <;> rfl

namespace Namespace

/-- A slot of a namespace: a field of a message or an interface, or the layer of a frame. -/
inductive Slot
  | message (m k : Nat)
  | interface (i k : Nat)
  | layer (frame l : Nat)

/-- The namespace that the path leads to, through those nested. -/
def at? (ns : Namespace) (path : List Nat) : Option Namespace := walk? namespaces path ns

/-- The field in a slot. -/
def slot? (ns : Namespace) : Slot → Option Field
  | .message m k => ns.messages[m]?.bind (·.fields[k]?)
  | .interface i k => ns.interfaces[i]?.bind (·.fields[k]?)
  | .layer frame l => ns.frames[frame]?.bind fun fr => fr.layers[l]?.bind Layer.inline?

variable {ns : Namespace} {g h : PartMap} {step step' : Field → Field}

theorem within_iff_exists_at? {n : Namespace} : n.Within ns ↔ ∃ path, ns.at? path = some n :=
  reflTransGen_iff_exists_walk?

theorem hasField_iff_exists_slot? {f : Field} :
    ns.HasField f ↔ ∃ slot, ns.slot? slot = some f := by
  constructor
  · rintro (⟨m, hm, hf⟩ | ⟨i, hi, hf⟩ | ⟨fr, hfr, l, hl, hf⟩)
    · obtain ⟨k, hk⟩ := List.mem_iff_getElem?.mp hf
      obtain ⟨j, hj⟩ := (exists_bind_getElem? fun m : Message => m.fields[k]?).mpr ⟨m, hm, hk⟩
      exact ⟨.message j k, hj⟩
    · obtain ⟨k, hk⟩ := List.mem_iff_getElem?.mp hf
      obtain ⟨j, hj⟩ := (exists_bind_getElem? fun i : Interface => i.fields[k]?).mpr ⟨i, hi, hk⟩
      exact ⟨.interface j k, hj⟩
    · obtain ⟨k, hk⟩ := (exists_bind_getElem? _).mpr ⟨l, hl, Layer.inline?_eq_some.mpr hf⟩
      obtain ⟨j, hj⟩ := (exists_bind_getElem? fun fr : Frame =>
        fr.layers[k]?.bind Layer.inline?).mpr ⟨fr, hfr, hk⟩
      exact ⟨.layer j k, hj⟩
  · rintro ⟨m | i | fr, hslot⟩
    · obtain ⟨m, hm, hf⟩ := (exists_bind_getElem? _).mp ⟨_, hslot⟩
      exact Or.inl ⟨m, hm, List.mem_of_getElem? hf⟩
    · obtain ⟨i, hi, hf⟩ := (exists_bind_getElem? _).mp ⟨_, hslot⟩
      exact Or.inr (Or.inl ⟨i, hi, List.mem_of_getElem? hf⟩)
    · obtain ⟨fr, hfr, hl⟩ := (exists_bind_getElem? _).mp ⟨_, hslot⟩
      obtain ⟨l, hl, hf⟩ := (exists_bind_getElem? _).mp ⟨_, hl⟩
      exact Or.inr (Or.inr ⟨fr, hfr, l, hl, Layer.inline?_eq_some.mp hf⟩)

/-! ### Changes of namespaces -/

/-- The change does `step` to the field in each slot. -/
def PartMap.Changes (g : PartMap) (step : Field → Field) : Prop :=
  ∀ (ns : Namespace) (slot : Slot), (ns.mapParts g).slot? slot = (ns.slot? slot).map step

theorem PartMap.Changes.andThen (hg : g.Changes step) (hh : h.Changes step') :
    (g.andThen h).Changes (step' ∘ step) := by
  intro ns slot
  rw [← mapParts_mapParts, hh, hg, Option.map_map]

/-- Fields of messages and interfaces keep their positions. Those of layers do if layers do. -/
theorem PartMap.Acts.changes (hg : g.Acts step)
    (hframe : ∀ (fr : Frame) (l : Nat), (g.frame fr).layers[l]?.bind Layer.inline? =
      (fr.layers[l]?.bind Layer.inline?).map step) : g.Changes step := by
  intro ns slot
  cases slot with
  | message m k =>
    rw [slot?, slot?, messages_mapParts, List.getElem?_map, Option.bind_map, Option.map_bind]
    refine congrArg _ (funext fun m => ?_)
    rw [Function.comp_apply, hg.message, List.getElem?_map, Function.comp_apply]
  | interface i k =>
    rw [slot?, slot?, interfaces_mapParts, List.getElem?_map, Option.bind_map, Option.map_bind]
    refine congrArg _ (funext fun i => ?_)
    rw [Function.comp_apply, hg.interface, List.getElem?_map, Function.comp_apply]
  | layer fr l =>
    rw [slot?, slot?, frames_mapParts, List.getElem?_map, Option.bind_map, Option.map_bind]
    exact congrArg _ (funext fun fr => hframe fr l)

theorem changes_refsMap (g : FieldRef → FieldRef) : (refsMap g).Changes (Field.mapRefs g) := by
  refine (acts_refsMap g).changes fun fr l => ?_
  show (fr.layers.map _)[l]?.bind Layer.inline? = _
  rw [List.getElem?_map, Option.bind_map, Option.map_bind]
  exact congrArg _ (funext (Layer.inline?_mapRefs g))

theorem changes_completeMap (a : Arena) :
    (completeMap a).Changes fun f => (f.complete a).1 := by
  refine (acts_completeMap a).changes fun fr l => ?_
  show (fr.layers.map _)[l]?.bind Layer.inline? = _
  rw [List.getElem?_map, Option.bind_map, Option.map_bind]
  exact congrArg _ (funext (Layer.inline?_completeLayer a))

theorem changes_messageMap {g : Message → Message} (hg : ∀ m, (g m).fields = m.fields) :
    (messageMap g).Changes id :=
  (acts_messageMap hg).changes fun _ _ => Option.map_id_apply.symm

theorem allInterfaces_eq_nil (h : ns.allInterfaces = []) : ns.interfaces = [] := by
  obtain ⟨name, externalRef, description, fields, interfaces, messages, frames, namespaces⟩ := ns
  exact (List.append_eq_nil_iff.mp h).1

/-- A default interface that is the only one takes no slot. -/
theorem slot?_addDefaultInterface (h : ns.interfaces = []) (slot : Slot) :
    ns.addDefaultInterface.slot? slot = ns.slot? slot := by
  unfold addDefaultInterface
  split_ifs
  · rfl
  · cases slot with
    | message m k => rfl
    | layer fr l => rfl
    | interface i k =>
      rw [slot?, slot?, h]
      cases i <;> rfl

theorem at?_addDefaultInterface (ns : Namespace) (k : Nat) (path : List Nat) :
    ns.addDefaultInterface.at? (k :: path) = ns.at? (k :: path) := by
  unfold addDefaultInterface
  split_ifs <;> rfl

end Namespace

/-! ### Fields of a schema -/

namespace Arena

/-- Cutting edges changes nothing but the references of the field at a place. -/
theorem exists_get?_cutEdges {f : Option Field} {i : FieldId} (cut : List (FieldId × FieldId))
    {a : Arena} (h : ∃ g, a.get? i = f.map (Field.mapRefs g)) :
    ∃ g, (a.cutEdges cut).1.get? i = f.map (Field.mapRefs g) := by
  induction cut generalizing a with
  | nil => exact h
  | cons edge cut ih =>
    obtain ⟨source, target⟩ := edge
    rw [cutEdges]
    cases hsource : a.get? source with
    | none => exact ih h
    | some source' =>
      refine ih ?_
      rw [get?_set]
      split_ifs with hi
      · obtain ⟨g, hg⟩ := h
        refine ⟨unbind target ∘ g, ?_⟩
        subst hi
        rw [hg] at hsource ⊢
        obtain ⟨f, rfl, rfl⟩ := Option.map_eq_some_iff.mp hsource
        rw [Option.map_some, Option.map_some, Option.map_some, Field.mapRefs_mapRefs]
      · exact h

end Arena

namespace Schema

/-- Where a field stands that is not inside of another one: at a place of the arena, or in a slot of
the namespace that a path leads to. -/
inductive Site
  | arena (id : FieldId)
  | slot (ns : List Nat) (slot : Namespace.Slot)

/-- Where a field stands: a site, and the path from its field. -/
structure Place where
  site : Site
  path : List Nat

/-- The field of a site. -/
def siteField? (s : Schema) : Site → Option Field
  | .arena id => s.arena.get? id
  | .slot ns slot => (s.root.at? ns).bind (·.slot? slot)

/-- The field at a place. -/
def fieldAt? (s : Schema) (p : Place) : Option Field :=
  (s.siteField? p.site).bind (·.at? p.path)

variable {s : Schema} {f : Field}

theorem hasField_iff_exists_siteField? : s.HasField f ↔ ∃ site, s.siteField? site = some f := by
  constructor
  · rintro (⟨i, hf⟩ | ⟨n, hn, hf⟩)
    · exact ⟨.arena i, hf⟩
    · obtain ⟨path, hpath⟩ := Namespace.within_iff_exists_at?.mp hn
      obtain ⟨slot, hslot⟩ := Namespace.hasField_iff_exists_slot?.mp hf
      exact ⟨.slot path slot, by rw [siteField?, hpath, Option.bind_some, hslot]⟩
  · rintro ⟨i | ⟨path, slot⟩, hf⟩
    · exact Or.inl ⟨i, hf⟩
    · obtain ⟨n, hn, hf⟩ := Option.bind_eq_some_iff.mp hf
      exact Or.inr ⟨n, Namespace.within_iff_exists_at?.mpr ⟨path, hn⟩,
        Namespace.hasField_iff_exists_slot?.mpr ⟨slot, hf⟩⟩

/-- **Each field that a schema contains has a place.** -/
theorem contains_iff_exists_fieldAt? : s.Contains f ↔ ∃ p, s.fieldAt? p = some f := by
  constructor
  · rintro ⟨g, hg, hf⟩
    obtain ⟨site, hsite⟩ := hasField_iff_exists_siteField?.mp hg
    obtain ⟨path, hpath⟩ := Field.within_iff_exists_at?.mp hf
    exact ⟨⟨site, path⟩, by rw [fieldAt?, hsite, Option.bind_some, hpath]⟩
  · rintro ⟨p, hp⟩
    obtain ⟨g, hg, hf⟩ := Option.bind_eq_some_iff.mp hp
    exact ⟨g, hasField_iff_exists_siteField?.mpr ⟨p.site, hg⟩,
      Field.within_iff_exists_at?.mpr ⟨p.path, hf⟩⟩

/-! ### Linking -/

/-- The arena with references bound and cycles cut, before the fields are completed. -/
def boundArena (s : Schema) : Arena := s.bindRefs.1.arena.breakCycles.1

/-- Binding references and cutting cycles changes the references of the field at a place. -/
theorem exists_get?_boundArena (s : Schema) (i : FieldId) :
    ∃ g, s.boundArena.get? i = (s.arena.get? i).map (Field.mapRefs g) := by
  rw [boundArena, Arena.breakCycles]
  exact Arena.exists_get?_cutEdges _ ⟨_, s.get?_bindRefs i⟩

/-- The arena that the fields of a site are completed in: for one in the arena that of its turn, and
for the other ones the arena with all fields completed. -/
def seenFrom (s : Schema) : Site → Arena
  | .arena i => s.boundArena.atTurn i
  | .slot .. => s.link.1.arena

theorem changes_linkMap (s : Schema) :
    s.linkMap.Changes fun f => ((f.mapRefs (bind s.root)).complete s.link.1.arena).1 := by
  rw [arena_link]
  let completed := (s.bindRefs.1.withArena s.boundArena).completeFields.1
  have hrefs := Namespace.changes_refsMap (bind s.root)
  have hids := Namespace.changes_messageMap
    (g := fun m => { m with id := messageId? completed.root completed.arena m }) fun _ => rfl
  exact (hrefs.andThen (Namespace.changes_completeMap _)).andThen hids

theorem siteField?_slot_link (s : Schema) (path : List Nat) (slot : Namespace.Slot) :
    s.link.1.siteField? (.slot path slot) =
      (s.siteField? (.slot path slot)).map fun f =>
        ((f.mapRefs (bind s.root)).complete s.link.1.arena).1 := by
  have hchanged : ((s.root.mapParts s.linkMap).at? path).bind (·.slot? slot) =
      (s.siteField? (.slot path slot)).map fun f =>
        ((f.mapRefs (bind s.root)).complete s.link.1.arena).1 := by
    rw [siteField?, Namespace.at?, walk?_of_next (Namespace.namespaces_mapParts s.linkMap),
      Option.bind_map, Option.map_bind]
    exact congrArg _ (funext fun n => s.changes_linkMap n slot)
  rw [← hchanged, siteField?]
  rcases s.root_link with hroot | ⟨hnone, hroot⟩ <;> rw [hroot]
  cases path with
  | nil => exact Namespace.slot?_addDefaultInterface (Namespace.allInterfaces_eq_nil hnone) slot
  | cons k path => rw [Namespace.at?_addDefaultInterface]

/-- **Linking binds the references of the field at a place, and completes it** in the arena that the
site of the place sees. It leaves no field out, and brings no other ones. -/
theorem fieldAt?_link (s : Schema) (site : Site) :
    ∃ g, ∀ path, s.link.1.fieldAt? ⟨site, path⟩ =
      (s.fieldAt? ⟨site, path⟩).map fun f => ((f.mapRefs g).complete (s.seenFrom site)).1 := by
  have hinner (g : FieldRef → FieldRef) (f : Field) :
      ((f.mapRefs g).complete (s.seenFrom site)).1.inner =
        f.inner.map fun f => ((f.mapRefs g).complete (s.seenFrom site)).1 := by
    rw [Field.inner_complete, Field.inner_mapRefs, List.map_map]
    rfl
  obtain ⟨g, hg⟩ : ∃ g, s.link.1.siteField? site =
      (s.siteField? site).map fun f => ((f.mapRefs g).complete (s.seenFrom site)).1 := by
    cases site with
    | slot path slot => exact ⟨_, s.siteField?_slot_link path slot⟩
    | arena i =>
      obtain ⟨g, hg⟩ := s.exists_get?_boundArena i
      refine ⟨g, ?_⟩
      rw [siteField?, arena_link, ← boundArena, Arena.get?_complete, hg, Option.map_map]
      rfl
  refine ⟨g, fun path => ?_⟩
  rw [fieldAt?, fieldAt?, hg, Option.bind_map, Option.map_bind]
  exact congrArg _ (funext fun f => walk?_of_next (hinner g) path f)

theorem eq_complete_of_fieldAt? {p : Place} {g g' : Field} (hg : s.fieldAt? p = some g)
    (hg' : s.link.1.fieldAt? p = some g') :
    ∃ change, g' = ((g.mapRefs change).complete (s.seenFrom p.site)).1 := by
  obtain ⟨change, hlink⟩ := s.fieldAt?_link p.site
  have heq : s.link.1.fieldAt? p = _ := hlink p.path
  rw [hg', show s.fieldAt? ⟨p.site, p.path⟩ = some g from hg, Option.map_some,
    Option.some.injEq] at heq
  exact ⟨change, heq⟩

/-- **Each field of a linked schema stands where it stood as it was read.** -/
theorem exists_fieldAt?_of_contains_link (h : s.link.1.Contains f) :
    ∃ p g, s.fieldAt? p = some g ∧ s.link.1.fieldAt? p = some f := by
  obtain ⟨⟨site, path⟩, hp⟩ := contains_iff_exists_fieldAt?.mp h
  obtain ⟨change, hlink⟩ := s.fieldAt?_link site
  obtain ⟨g, hg, -⟩ := Option.map_eq_some_iff.mp ((hlink path).symm.trans hp)
  exact ⟨⟨site, path⟩, g, hg, hp⟩

/-! ### What a site sees -/

/-- The field of the site is completed before that at `id`: it comes earlier in the arena. -/
def Site.IsBefore : Site → FieldId → Prop
  | .arena i, id => i < id
  | .slot .., _ => False

variable {site : Site} {id : FieldId} {path : List Nat} {r : FieldRef}

theorem size_boundArena (s : Schema) : s.boundArena.size = s.arena.size := by
  have hmap (i : FieldId) :
      (s.boundArena.get? i).map (fun _ => ()) = (s.arena.get? i).map fun _ => () := by
    obtain ⟨g, hg⟩ := s.exists_get?_boundArena i
    rw [hg, Option.map_map]
  exact Arena.size_eq_of_map_get? hmap

theorem size_seenFrom (s : Schema) (site : Site) : (s.seenFrom site).size = s.arena.size := by
  cases site with
  | arena i => exact (Arena.size_atTurn _ _).trans s.size_boundArena
  | slot path slot => exact s.size_arena_link

theorem get?_seenFrom_of_isBefore (hf : s.siteField? site = some f) (h : site.IsBefore id) :
    (s.seenFrom site).get? id = s.boundArena.get? id := by
  cases site with
  | slot path slot => exact h.elim
  | arena i =>
    have hi : i < s.boundArena.size := s.size_boundArena ▸ Arena.lt_size_of_get? hf
    rw [seenFrom, Arena.get?_atTurn hi, if_neg (Nat.ne_of_lt h), if_neg (Nat.lt_asymm h)]

/-- A field that is not completed later is seen as it is in the linked schema. -/
theorem get?_seenFrom_of_not_isBefore (hf : s.siteField? site = some f) (hne : site ≠ .arena id)
    (h : ¬ site.IsBefore id) : (s.seenFrom site).get? id = s.link.1.arena.get? id := by
  cases site with
  | slot path slot => rfl
  | arena i =>
    have hi : i < s.boundArena.size := s.size_boundArena ▸ Arena.lt_size_of_get? hf
    have hid : i ≠ id := fun heq => hne (congrArg _ heq)
    rw [seenFrom, Arena.get?_atTurn hi, if_neg hid,
      if_pos (Nat.lt_of_le_of_ne (Nat.le_of_not_lt h) (Ne.symm hid)), arena_link]
    rfl

/-- The own place of a site in the arena is blank. -/
theorem get?_seenFrom_self {i : FieldId} (hf : s.siteField? (.arena i) = some f) :
    (s.seenFrom (.arena i)).get? i = some .blank := by
  rw [seenFrom, Arena.get?_atTurn (s.size_boundArena ▸ Arena.lt_size_of_get? hf), if_pos rfl]

theorem mem_refs_of_contains (h : s.Contains f) (hr : r ∈ f.refs) : r ∈ s.refs := by
  obtain ⟨g, hg, hf⟩ := h
  exact mem_refs_iff.mpr
    (Or.inl ⟨g, hg, Field.mem_refs_iff_holds.mp (Field.mem_refs_of_within hf hr)⟩)

/-- **No reference of a linked schema is bound to the site that it stands in.** -/
theorem site_ne_of_mem_refs (h : s.link.1.fieldAt? ⟨site, path⟩ = some f) (hr : r ∈ f.refs)
    (ht : r.target = some id) : site ≠ .arena id := by
  rintro rfl
  obtain ⟨g, hg, hf⟩ := Option.bind_eq_some_iff.mp h
  have hholds : g.Holds r := Field.mem_refs_iff_holds.mp
    (Field.mem_refs_of_within (Field.within_iff_exists_at?.mpr ⟨_, hf⟩) hr)
  exact s.acyclic_link id (TransGen.single ⟨g, r, hg, hholds, ht⟩)

end Schema

end WireSchema
