import WireSchema.Proofs.Field.Inside
import WireSchema.Proofs.Field.Members
import WireSchema.Proofs.Namespace.Upkeep
import WireSchema.Proofs.Schema.Order

/-! # What holds of all fields of a schema

What readers establish of every field holds of the fields of all schemas that documents build: of
those in the arena, and of those of messages, interfaces and layers (`Built.forall_hasField`). If
binding references and completing fields do not change it, it holds of the fields of linked schemas
as well (`forall_hasField_link`). -/

namespace WireSchema

open Markup Relation

/-! ### Layers of frames -/

section layers
variable {Q : Layer → Prop} {ctx : Context}
  (hQ : ∀ e, (Layer.read ctx e).Yields Q)

include hQ

theorem Frame.forall_layer_of_readLayers (es : List Element) :
    (Frame.readLayers ctx es).Yields fun r => ∀ l ∈ r.1, Q l := by
  induction es with
  | nil => exact Pass.yields_pure fun l hl => absurd hl List.not_mem_nil
  | cons child rest ih =>
    unfold readLayers
    split_ifs
    · refine ((hQ child).settled child.line).bind fun layer hlayer => ?_
      refine ih.bind fun r hr => ?_
      cases layer with
      | none => exact Pass.yields_pure hr
      | some l => exact Pass.yields_pure (List.forall_mem_cons.mpr ⟨hlayer l rfl, hr⟩)
    · exact ih
    · exact Pass.yields_bind fun _ => ih

/-- What holds of every layer that is read holds of the layers of a frame that is read. -/
theorem Frame.forall_layer_of_read {e : Element} :
    (Frame.read ctx e).Yields fun fr => ∀ l ∈ fr.layers, Q l := by
  unfold Frame.read
  refine Pass.yields_bind fun _ => Pass.yields_bind fun _ => ?_
  refine (Frame.forall_layer_of_readLayers hQ _).bind fun r hr => ?_
  refine Pass.yields_bind fun _ => Pass.yields_bind fun _ => ?_
  split
  · exact Pass.yields_bind fun _ => Pass.yields_pure hr
  · exact Pass.yields_pure hr

end layers

/-! ### Fields of declarations -/

section reading
variable {P : Window → Field → Prop} {ctx : Context} {e : Element}
  (hP : ∀ levels w, (WireSchema.readField ctx levels).GivesIn w (P w))

include hP

theorem Message.forall_fields_of_read :
    (Message.read ctx e).Yields fun m => ∀ f ∈ m.fields, P m.window f := by
  unfold Message.read
  refine Pass.yields_bind fun _ => Pass.yields_bind fun _ => Pass.yields_bind fun _ => ?_
  refine Pass.yields_bind fun _ => Pass.yields_bind fun window => Pass.yields_bind fun _ => ?_
  refine Pass.yields_bind fun _ => Pass.yields_bind fun _ => ?_
  refine (yields_readFields (fun e => hP _ window _ e rfl) _ _).bind fun fields hfields => ?_
  exact Pass.yields_bind fun _ => Pass.yields_bind fun _ => Pass.yields_pure hfields

theorem Interface.forall_fields_of_read :
    (Interface.read ctx e).Yields fun i => ∀ f ∈ i.fields, P .always f := by
  unfold Interface.read
  refine Pass.yields_bind fun _ => Pass.yields_bind fun _ => Pass.yields_bind fun _ => ?_
  refine (yields_readFields (fun e => hP _ .always _ e rfl) _ _).bind fun fields hfields => ?_
  exact Pass.yields_bind fun _ => Pass.yields_pure hfields

theorem Layer.forall_field_of_read :
    (Layer.read ctx e).Yields fun l => ∀ f, l.field = some (.inline f) → P .always f := by
  have hfield (name : String) (named : Option String) :
      (Layer.readField (readInside ctx e) name named e).Yields fun p =>
        ∀ f, p = some (.inline f) → P .always f := by
    unfold Layer.readField
    split
    · refine Pass.yields_pure fun f hf => ?_
      simp at hf
    · refine Pass.yields_bind fun _ => Pass.yields_pure fun f hf => ?_
      simp at hf
    · refine Pass.Yields.bind (hP _ .always (.inside .always) _ rfl) fun f hf => ?_
      refine Pass.yields_pure fun f' hf' => ?_
      rw [Option.some.injEq, Part.inline.injEq] at hf'
      rw [← hf']
      exact hf
    · exact Pass.yields_fail _
  unfold Layer.read
  refine Pass.yields_bind fun _ => Pass.yields_bind fun _ => Pass.yields_bind fun _ => ?_
  refine Pass.yields_bind fun _ => (hfield _ _).bind fun field hfield => ?_
  refine Pass.yields_bind fun _ => Pass.yields_bind fun _ => Pass.yields_bind fun _ => ?_
  exact Pass.yields_bind fun _ => Pass.yields_pure hfield

theorem Frame.forall_field_of_read :
    (Frame.read ctx e).Yields fun fr =>
      ∀ l ∈ fr.layers, ∀ f, l.field = some (.inline f) → P .always f :=
  Frame.forall_layer_of_read fun _ => Layer.forall_field_of_read hP

end reading

variable {P : Field → Prop}

theorem Namespace.forall_hasField_iff {n : Namespace} : (∀ f, n.HasField f → P f) ↔
    n.AllParts (fun i => ∀ f ∈ i.fields, P f) (fun m => ∀ f ∈ m.fields, P f)
      fun fr => ∀ l ∈ fr.layers, ∀ f, l.field = some (.inline f) → P f := by
  constructor
  · intro h
    exact ⟨fun i hi f hf => h f (Or.inr (Or.inl ⟨i, hi, hf⟩)),
      fun m hm f hf => h f (Or.inl ⟨m, hm, hf⟩),
      fun fr hfr l hl f hf => h f (Or.inr (Or.inr ⟨fr, hfr, l, hl, hf⟩))⟩
  · rintro h f (⟨m, hm, hf⟩ | ⟨i, hi, hf⟩ | ⟨fr, hfr, l, hl, hf⟩)
    · exact h.message m hm f hf
    · exact h.interface i hi f hf
    · exact h.frame fr hfr l hl f hf

/-- **No declaration that is read brings a field without the property.** -/
theorem Namespace.upkeep_fields (hP : ∀ ctx levels, (WireSchema.readField ctx levels).Gives P)
    (version : Nat) : Upkeep version fun n => ∀ f, n.HasField f → P f := by
  have hgives (ctx : Context) (levels : Nat) (w : Window) := (hP ctx levels).givesIn w
  simp only [forall_hasField_iff]
  exact upkeep_allParts (fun ctx _ _ => Interface.forall_fields_of_read (hgives ctx))
    (fun ctx _ _ => Message.forall_fields_of_read (hgives ctx))
    fun ctx _ _ => Frame.forall_field_of_read (hgives ctx)

/-! ### Fields of the arena -/

namespace Population

/-- All fields in the arena of `q` have the property if those in the arena of `p` have it. -/
def KeepsArena (P : Field → Prop) (p q : Population) : Prop :=
  (∀ i f, p.catalogue.arena.get? i = some f → P f) →
    ∀ i f, q.catalogue.arena.get? i = some f → P f

variable {setting : Setting} {p q : Population} {e : Element}

theorem KeepsArena.of_eq (h : q.catalogue.arena = p.catalogue.arena) : KeepsArena P p q := by
  intro hp
  rw [h]
  exact hp

theorem keepsArena_ofPass {line : Nat} {pass : Pass Population}
    (h : ∀ q, pass.result = .ok q → KeepsArena P p q) :
    KeepsArena P p (Growth.ofPass p line pass).population := by
  rcases Growth.population_ofPass p line pass with hp | hp
  · rw [hp]
    exact .of_eq rfl
  · exact h _ hp

theorem keepsArena_addField
    (hP : ∀ ctx levels e, ctx.schemaVersion = setting.version →
      (readMerged ctx (readField ctx levels) .inNamespace e).Yields P)
    (h : (addField setting p e).result = .ok q) : KeepsArena P p q := by
  obtain ⟨merged, field, fields, -, hread, -, rfl⟩ := addField_eq_ok.mp h
  intro hp i f hf
  rw [Arena.get?_push] at hf
  split_ifs at hf
  · rw [Option.some.injEq] at hf
    rw [← hf]
    exact hP _ _ _ rfl field hread
  · exact hp i f hf

theorem keepsArena_addNested {fill : Population → Growth}
    (h : ∀ q, KeepsArena P q (fill q).population) :
    KeepsArena P p (addNested setting p e fill).population := by
  rcases addNested_cases setting p e fill with hq | ⟨name, -, hq | ⟨description, hq⟩⟩
  · rw [hq]
    exact .of_eq rfl
  · rw [hq]
    exact .of_eq rfl
  · rw [hq]
    exact fun hp => h ⟨_, p.catalogue⟩ hp

theorem keepsArena_law
    (hP : ∀ ctx levels e, ctx.schemaVersion = setting.version →
      (readMerged ctx (readField ctx levels) .inNamespace e).Yields P) :
    Growth.Law setting fun p g => KeepsArena P p g.population where
  warnings _ _ := .of_eq rfl
  andThen h h' := fun hp => h' (h hp)
  field _ _ := keepsArena_ofPass fun _ => keepsArena_addField hP
  interface _ _ := keepsArena_ofPass fun _ h => by
    obtain ⟨i, interfaces, -, -, rfl⟩ := addInterface_eq_ok h
    exact .of_eq rfl
  message _ _ := keepsArena_ofPass fun _ h => by
    obtain ⟨m, messages, -, -, rfl⟩ := addMessage_eq_ok h
    exact .of_eq rfl
  frame _ _ := keepsArena_ofPass fun _ h => by
    obtain ⟨f, frames, -, -, rfl⟩ := addFrame_eq_ok h
    exact .of_eq rfl
  nested _ _ _ := keepsArena_addNested

end Population

/-! ### Schemas -/

namespace Schema

variable {s : Schema} {f : Field}

theorem forall_hasField_iff : (∀ f, s.HasField f → P f) ↔
    (∀ i f, s.arena.get? i = some f → P f) ∧
      s.root.Everywhere fun n => ∀ f, n.HasField f → P f := by
  constructor
  · intro h
    exact ⟨fun i f hf => h f (Or.inl ⟨i, hf⟩), fun n hn f hf => h f (Or.inr ⟨n, hn, hf⟩)⟩
  · rintro ⟨harena, hroot⟩ f (⟨i, hf⟩ | ⟨n, hn, hf⟩)
    · exact harena i f hf
    · exact hroot n hn f hf

/-- **What is established of fields read in a namespace holds of all fields in the arena.** -/
theorem Built.forall_arena
    (hmerged : ∀ ctx levels e, ctx.schemaVersion = s.version →
      (readMerged ctx (readField ctx levels) .inNamespace e).Yields P) (h : s.Built) :
    ∀ i f, s.arena.get? i = some f → P f := by
  induction h with
  | read h =>
    intro i f hf
    simp [arena, (read_eq_ok h).2, Arena.empty, Arena.get?] at hf
  | @add s e _ ih =>
    rw [version_addDocument] at hmerged
    have hs := ih hmerged
    unfold Schema.addDocument
    dsimp only
    split_ifs
    · exact hs
    · have hlaw : Growth.Law ⟨s.version, s.endian⟩ fun p g =>
          Population.KeepsArena P p g.population := Population.keepsArena_law hmerged
      exact hlaw.add properties e ⟨s.root, s.catalogue⟩ hs

/-- **What all readers of fields establish holds of all fields that documents bring.** -/
theorem Built.forall_hasField (hnested : ∀ ctx levels, (readField ctx levels).Gives P)
    (hmerged : ∀ ctx levels e, (readMerged ctx (readField ctx levels) .inNamespace e).Yields P)
    (h : s.Built) : ∀ f, s.HasField f → P f :=
  forall_hasField_iff.mpr ⟨h.forall_arena fun ctx levels e _ => hmerged ctx levels e,
    h.everywhere (Namespace.upkeep_fields hnested _)⟩

/-- **What is established of every field as it is read holds of all fields that documents bring, at
any depth.** -/
theorem Built.forall_within (hP : ∀ ctx nested pos e, (readMerged ctx nested pos e).Yields P)
    (h : s.Built) : ∀ f, s.HasField f → f.Everywhere P :=
  h.forall_hasField (gives_everywhere_readField hP) fun ctx levels e =>
    yields_everywhere_readMerged hP (gives_everywhere_readField hP ctx levels) .inNamespace e

theorem Built.forall_contains (hP : ∀ ctx nested pos e, (readMerged ctx nested pos e).Yields P)
    (h : s.Built) (hf : s.Contains f) : P f := by
  obtain ⟨top, htop, hwithin⟩ := hf
  exact h.forall_within hP top htop f hwithin

/-! ### Linked schemas -/

/-- Linking binds the references of a field that is not in the arena, and completes it. -/
theorem acts_linkMap (s : Schema) : ∃ (g : FieldRef → FieldRef) (a : Arena),
    s.linkMap.Acts fun f => ((f.mapRefs g).complete a).1 := by
  let completed := (s.bindRefs.1.withArena s.bindRefs.1.arena.breakCycles.1).completeFields.1
  have hrefs := Namespace.acts_refsMap (bind s.root)
  have hcomplete := Namespace.acts_completeMap completed.arena
  have hids := Namespace.acts_messageMap
    (g := fun m => { m with id := messageId? completed.root completed.arena m }) fun _ => rfl
  exact ⟨bind s.root, completed.arena, (hrefs.andThen hcomplete).andThen hids⟩

theorem HasField.of_addDefaultInterface {ns : Namespace}
    (h : ns.addDefaultInterface.HasField f) : ns.HasField f := by
  unfold Namespace.addDefaultInterface at h
  split_ifs at h
  · exact h
  · rcases h with hf | ⟨i, hi, hf⟩ | hf
    · exact Or.inl hf
    · rcases List.mem_cons.mp hi with rfl | hi
      · exact absurd hf List.not_mem_nil
      · exact Or.inr (Or.inl ⟨i, hi, hf⟩)
    · exact Or.inr (Or.inr hf)

/-- **What binding references and completing fields do not change holds of all fields of a linked
schema**, if it holds of all fields before. -/
theorem forall_hasField_link (hrefs : ∀ g f, P (Field.mapRefs g f) ↔ P f)
    (hcomplete : ∀ a f, P (Field.complete a f).1 ↔ P f) (h : ∀ f, s.HasField f → P f) :
    ∀ f, s.link.1.HasField f → P f := by
  obtain ⟨harena, hroot⟩ := forall_hasField_iff.mp h
  refine forall_hasField_iff.mpr ⟨fun i f' hf' => ?_, ?_⟩
  · have hmap : (s.link.1.arena.get? i).map P = (s.arena.get? i).map P :=
      s.map_get?_link (fun f => propext (hrefs _ f)) (fun j f => propext (hrefs _ f))
        (fun a f => propext (hcomplete a f)) i
    rw [hf', Option.map_some] at hmap
    obtain ⟨f, hf, heq⟩ := Option.map_eq_some_iff.mp hmap.symm
    rw [← heq]
    exact harena i f hf
  · obtain ⟨g, a, hacts⟩ := s.acts_linkMap
    refine everywhere_link (fun n hn f' hf' => ?_)
      (fun n hn f hf => hn f (HasField.of_addDefaultInterface hf)) hroot
    obtain ⟨f, hf, rfl⟩ := hacts.hasField hf'
    exact (hcomplete a _).mpr ((hrefs g f).mpr (hn f hf))

/-- **What is established of every field as it is read holds of all fields of a linked schema, at
any depth**, if binding references and completing fields do not change it. -/
theorem Built.forall_within_link (hP : ∀ ctx nested pos e, (readMerged ctx nested pos e).Yields P)
    (hrefs : ∀ g f, P (Field.mapRefs g f) ↔ P f) (hcomplete : ∀ a f, P (Field.complete a f).1 ↔ P f)
    (h : s.Built) : ∀ f, s.link.1.HasField f → f.Everywhere P := by
  refine forall_hasField_link ?_ ?_ (h.forall_within hP)
  · exact fun g => Field.everywhere_iff_of_inner (Field.inner_mapRefs g) (hrefs g)
  · exact fun a => Field.everywhere_iff_of_inner (Field.inner_complete a) (hcomplete a)

/-- What all readers of bodies establish holds of all bodies of a linked schema, at any depth. -/
theorem Built.throughout_link {B : Body → Prop}
    (hB : ∀ ctx nested kind core pos props e,
      (readBody ctx nested kind core pos props e).Yields B)
    (hrefs : ∀ g f, B (Field.mapRefs g f).body ↔ B f.body)
    (hcomplete : ∀ a f, B (Field.complete a f).1.body ↔ B f.body) (h : s.Built) :
    ∀ f, s.link.1.HasField f → f.Throughout B :=
  h.forall_within_link (yields_body_readMerged hB) hrefs hcomplete

/-- **An enumeration or set is in a linked schema as it was read.** -/
theorem Built.isRead_link (h : s.Built) (hf : s.link.1.Contains f)
    (hkind : f.kind = .enum ∨ f.kind = .set) : f.IsRead := by
  obtain ⟨top, htop, hwithin⟩ := hf
  refine h.forall_within_link (P := fun f => f.kind = .enum ∨ f.kind = .set → f.IsRead)
    (fun ctx nested pos e f hf _ => ⟨ctx, nested, pos, e, hf⟩) (fun g f => ?_) (fun a f => ?_)
    top htop f hwithin hkind
  · rw [Field.kind_mapRefs]
    exact forall_congr' fun hkind => by rw [Field.mapRefs_of_values g hkind]
  · rw [Field.kind_complete]
    exact forall_congr' fun hkind => by rw [Field.complete_of_values a hkind]

end Schema

end WireSchema
