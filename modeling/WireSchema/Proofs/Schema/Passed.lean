import WireSchema.Proofs.Field.Passed
import WireSchema.Proofs.Schema.Order
import WireSchema.Proofs.Schema.Standing
import WireSchema.Schema.Validation

/-! # What a schema that passes its check has

The check of a schema passes only if that of each of its parts does (`Schema.passed_of_check`). So
every field passes among its siblings, at any depth and wherever it stands
(`Schema.Stands.passes`). -/

namespace WireSchema

variable {cx : CheckContext}

/-! ### Layers -/

/-- What the check of a layer establishes. -/
structure Layer.Passed (cx : CheckContext) (names : List String) (l : Layer) : Prop where
  field : ∀ f, l.field = some (.inline f) → f.Passes cx noSiblings
  value : ∀ name pseudo, l.kind = .value name pseudo → name ∈ names
  fits : ∀ f, (l.field? cx.arena).bind cx.arena.resolved = some f → l.fits f.kind = true

/-- The check of a layer is made of three, one after the other. -/
theorem Layer.check_eq (names : List String) (frame : String) (l : Layer) :
    l.check cx names frame =
      (match l.field with
        | some (.inline f) => f.check cx noSiblings
        | _ => pure ()) >>= fun _ =>
      (match l.kind with
        | .value name _ => Pass.require (names.contains name)
            (.layerComposition frame (.unknownInterfaceField l.name name))
        | _ => pure ()) >>= fun _ =>
      match (l.field? cx.arena).bind cx.arena.resolved with
      | none => pure ()
      | some f => Pass.require (l.fits f.kind)
          (.layerComposition frame (.unfitField l.kind.tag l.name f.kind)) := by
  obtain ⟨name, description, kind, field, line⟩ := l
  rcases field with _ | f | r <;> cases kind <;> rfl

theorem Layer.check_eq_ok {l : Layer} {names : List String} {frame : String}
    (h : (l.check cx names frame).result = .ok ()) : l.Passed cx names := by
  rw [check_eq] at h
  obtain ⟨_, hfield, h⟩ := Pass.result_bind_eq_ok.mp h
  obtain ⟨_, hvalue, h⟩ := Pass.result_bind_eq_ok.mp h
  refine ⟨fun f hf => ?_, fun name pseudo hkind => ?_, fun f hf => ?_⟩
  · rw [hf] at hfield
    exact hfield
  · rw [hkind] at hvalue
    simpa using Pass.result_require_eq_ok.mp hvalue
  · rw [hf] at h
    exact Pass.result_require_eq_ok.mp h

theorem Frame.checkLayers_eq_ok {names : List String} {frame : String} {ls : List Layer}
    (h : (checkLayers cx names frame ls).result = .ok true) :
    ∀ l ∈ ls, l.Passed cx names := by
  induction ls with
  | nil => simp
  | cons l ls ih =>
    obtain ⟨hl, hls⟩ := Pass.result_and_eq_ok.mp h
    exact List.forall_mem_cons.mpr
      ⟨Layer.check_eq_ok (Pass.result_succeeds_eq_ok.mp hl), ih hls⟩

theorem Frame.check_eq_ok {fr : Frame} {names : List String}
    (h : (fr.check cx names).result = .ok ()) :
    ∀ l ∈ fr.layers, l.Passed cx names := by
  obtain ⟨ok, hok, h⟩ := Pass.result_bind_eq_ok.mp h
  rw [Pass.result_require_eq_ok.mp h] at hok
  exact checkLayers_eq_ok hok

/-! ### Messages and interfaces -/

theorem Message.checkOwned_of_check {m : Message} {platforms : List String}
    {known : String → Bool} (h : (m.check cx platforms known).result = .ok ()) :
    (checkOwned cx m.externalRef m.fields).result = .ok () := by
  unfold Message.check at h
  dsimp only at h
  split at h
  · obtain ⟨_, hfail, -⟩ := Pass.result_bind_eq_ok.mp h
    simp [Pass.fail] at hfail
  · split at h
    · obtain ⟨_, -, h⟩ := Pass.result_bind_eq_ok.mp h
      exact h
    · exact h

theorem Interface.check_eq_ok {i : Interface} (h : (i.check cx).result = .ok ()) :
    i.fields.countP (·.core.semanticType == .version) ≤ 1 ∧
      (checkOwned cx i.externalRef i.fields).result = .ok () := by
  obtain ⟨_, hversions, h⟩ := Pass.result_bind_eq_ok.mp h
  exact ⟨of_decide_eq_true (Pass.result_require_eq_ok.mp hversions), h⟩

/-! ### Namespaces -/

namespace Namespace

variable {ns : Namespace} {scope : SchemaScope}

theorem checkAll_eq_ok {α : Type} {line : α → Nat} {check : α → Pass Unit} {xs : List α}
    (h : (checkAll line check xs).result = .ok true) : ∀ x ∈ xs, (check x).result = .ok () := by
  induction xs with
  | nil => simp
  | cons x xs ih =>
    obtain ⟨hx, hxs⟩ := Pass.result_and_eq_ok.mp h
    exact List.forall_mem_cons.mpr ⟨Pass.result_succeeds_eq_ok.mp hx, ih hxs⟩

theorem checkIn_eq_ok {namespaces : List Namespace}
    (h : (checkIn cx scope namespaces).result = .ok true) :
    ∀ n ∈ namespaces, (n.check cx scope).result = .ok true := by
  induction namespaces with
  | nil => simp
  | cons n ns ih =>
    rw [checkIn] at h
    obtain ⟨hn, hns⟩ := Pass.result_and_eq_ok.mp h
    exact List.forall_mem_cons.mpr ⟨hn, ih hns⟩

/-- A namespace passes if its own parts do and the namespaces that are nested in it pass. -/
theorem parts_of_check (h : (ns.check cx scope).result = .ok true) :
    (∀ f ∈ ns.fields.filterMap fun p => cx.arena.get? p.2,
      f.Passes cx (siblings cx.arena ns.fields)) ∧
    (∀ i ∈ ns.interfaces, (i.check cx).result = .ok ()) ∧
    (∀ m ∈ ns.messages, (m.check cx scope.platforms fun path =>
      (scope.root.findInterface? path).isSome).result = .ok ()) ∧
    (∀ fr ∈ ns.frames, (fr.check cx scope.interfaceFields).result = .ok ()) ∧
    ∀ n ∈ ns.namespaces, (n.check cx scope).result = .ok true := by
  obtain ⟨name, externalRef, description, fields, interfaces, messages, frames, namespaces⟩ := ns
  rw [check] at h
  obtain ⟨fieldsOk, hfields, h⟩ := Pass.result_bind_eq_ok.mp h
  obtain ⟨interfacesOk, hinterfaces, h⟩ := Pass.result_bind_eq_ok.mp h
  obtain ⟨messagesOk, hmessages, h⟩ := Pass.result_bind_eq_ok.mp h
  obtain ⟨framesOk, hframes, h⟩ := Pass.result_bind_eq_ok.mp h
  obtain ⟨nestedOk, hnested, h⟩ := Pass.result_bind_eq_ok.mp h
  rw [Pass.result_pure, Except.ok.injEq] at h
  simp only [Bool.and_eq_true] at h
  obtain ⟨⟨⟨⟨rfl, rfl⟩, rfl⟩, rfl⟩, rfl⟩ := h
  exact ⟨checkAll_eq_ok hfields, checkAll_eq_ok hinterfaces, checkAll_eq_ok hmessages,
    checkAll_eq_ok hframes, checkIn_eq_ok hnested⟩

/-- What the check of a namespace establishes of the namespace itself. -/
structure Passed (cx : CheckContext) (scope : SchemaScope) (ns : Namespace) : Prop where
  field : ∀ f siblings, ns.Lists cx.arena f siblings → f.Passes cx siblings
  versions : ∀ i ∈ ns.interfaces, i.fields.countP (·.core.semanticType == .version) ≤ 1
  layer : ∀ fr ∈ ns.frames, ∀ l ∈ fr.layers, l.Passed cx scope.interfaceFields

theorem check_eq_ok (h : (ns.check cx scope).result = .ok true) : ns.Passed cx scope := by
  obtain ⟨hfields, hinterfaces, hmessages, hframes, -⟩ := parts_of_check h
  have hlayers (fr : Frame) (hfr : fr ∈ ns.frames) :
      ∀ l ∈ fr.layers, l.Passed cx scope.interfaceFields :=
    Frame.check_eq_ok (hframes fr hfr)
  have hlists (i : Interface) (hi : i ∈ ns.interfaces) :=
    Interface.check_eq_ok (hinterfaces i hi)
  refine ⟨fun f siblings hf => ?_, fun i hi => (hlists i hi).1, hlayers⟩
  cases hf with
  | @own p _ hp hf => exact hfields f (List.mem_filterMap.mpr ⟨p, hp, hf⟩)
  | @message m _ hm hf =>
    exact checkOwned_eq_ok (Message.checkOwned_of_check (hmessages m hm)) f hf
  | @interface i _ hi hf => exact checkOwned_eq_ok (hlists i hi).2 f hf
  | @layer fr l _ hfr hl hf => exact (hlayers fr hfr l hl).field f hf

/-- **In a namespace that passes, the fields of a message or interface have different names.** -/
theorem distinct_of_check (h : (ns.check cx scope).result = .ok true) :
    (∀ m ∈ ns.messages, DistinctNames m.fields) ∧
      ∀ i ∈ ns.interfaces, DistinctNames i.fields := by
  obtain ⟨-, hinterfaces, hmessages, -⟩ := parts_of_check h
  refine ⟨fun m hm => ?_, fun i hi => ?_⟩
  · exact distinct_of_checkOwned (Message.checkOwned_of_check (hmessages m hm))
  · exact distinct_of_checkOwned (Interface.check_eq_ok (hinterfaces i hi)).2

theorem check_eq_ok_of_within (h : (ns.check cx scope).result = .ok true) {n : Namespace}
    (hn : n.Within ns) : (n.check cx scope).result = .ok true := by
  induction hn with
  | refl => exact h
  | tail _ hin ih => exact (parts_of_check ih).2.2.2.2 _ hin

end Namespace

/-! ### Schemas -/

namespace Schema

variable {s : Schema} {dependent : Bool} {f : Field} {siblings : Siblings}

/-- What the checks look at in the whole schema. -/
def scope (s : Schema) : SchemaScope where
  root := s.root
  platforms := s.platforms
  interfaceFields := s.root.allInterfaces.flatMap fun i => i.fields.map (·.name)

theorem check_namespace_eq_ok (h : (s.check dependent).result = .ok true) {n : Namespace}
    (hn : n.Within s.root) : (n.check ⟨s.arena, dependent⟩ s.scope).result = .ok true := by
  obtain ⟨hroot, -⟩ := Pass.result_and_eq_ok.mp h
  exact Namespace.check_eq_ok_of_within hroot hn

/-- **If a schema passes its check, each of its namespaces does.** -/
theorem passed_of_check (h : (s.check dependent).result = .ok true) {n : Namespace}
    (hn : n.Within s.root) : n.Passed ⟨s.arena, dependent⟩ s.scope :=
  Namespace.check_eq_ok (check_namespace_eq_ok h hn)

/-- **If a schema passes its check, each of its fields does**, among its siblings. -/
theorem Stands.passes (hf : s.Stands f siblings) (h : (s.check dependent).result = .ok true) :
    f.Passes ⟨s.arena, dependent⟩ siblings := by
  induction hf with
  | declared hn hf => exact (passed_of_check h hn).field _ _ hf
  | inside _ hg ih => exact ih.inner.2 _ hg

/-- **In a schema that passes its check, members that stand side by side have different names.** -/
theorem distinct_of_check (hs : s.Indexed) (h : (s.check dependent).result = .ok true)
    (hf : s.Contains f) : f.Throughout fun body => DistinctNames body.members := by
  obtain ⟨siblings, hf⟩ := (contains_iff_exists_stands hs).mp hf
  exact (hf.passes h).distinct

end Schema

end WireSchema
