import WireSchema.Proofs.Field.Traversal
import WireSchema.Proofs.Namespace.Nesting

/-! # Going through the references of a namespace

Messages, interfaces, layers and nested namespaces are gone through like the fields in them: a step
that keeps a state sees the references that `Namespace.refs` lists, in this order, and nothing else
changes (`Namespace.SameButRefs`). `Namespace.traversal` and `Layer.traversal` say for them what
`Field.traversal` says for fields. -/

namespace WireSchema

section slot
variable {σ α β : Type} {refs : α → List FieldRef} {Same : α → α → Prop}
  {step : FieldRef → StateM σ FieldRef} {traverse : α → StateM σ α}

theorem Follows.slot (get : β → α) (put : β → α → β) {x : β} (hput : ∀ a, get (put x a) = a)
    (h : Follows refs Same step traverse (get x)) :
    Follows (fun b => refs (get b)) (fun b b' => ∃ a, Same (get b) a ∧ put b a = b') step
      (fun b => do return put b (← traverse (get b))) x := by
  intro s s' x' hx
  obtain ⟨a, t, ha, hx⟩ := run_bind_eq_iff.mp hx
  obtain ⟨rfl, rfl⟩ := run_pure_eq_iff.mp hx
  obtain ⟨hsame, hsteps⟩ := h ha
  refine ⟨⟨a, hsame, rfl⟩, ?_⟩
  dsimp only
  rwa [hput]

theorem Determined.slot (get : β → α) (put : β → α → β) {x : β} (hput : ∀ a, get (put x a) = a)
    (h : Determined refs Same (get x)) :
    Determined (fun b => refs (get b)) (fun b b' => ∃ a, Same (get b) a ∧ put b a = b') x := by
  rintro _ _ t u ⟨a, ha, rfl⟩ ⟨b, hb, rfl⟩ htu
  dsimp only at htu
  rw [hput, hput] at htu
  obtain ⟨rfl, rfl⟩ := h ha hb htu
  exact ⟨rfl, rfl⟩

end slot

/-! ### Messages, interfaces and frames -/

section parts
variable {σ : Type} (step : FieldRef → StateM σ FieldRef)

/-- The message, with what the step makes of its references. -/
def Message.traverseRefs (m : Message) : StateM σ Message :=
  return { m with fields := ← traverseMembers step m.fields }

/-- The interface, with what the step makes of its references. -/
def Interface.traverseRefs (i : Interface) : StateM σ Interface :=
  return { i with fields := ← traverseMembers step i.fields }

/-- The layer, with what the step makes of its references. -/
def Layer.traverseRefs (l : Layer) : StateM σ Layer :=
  match l.field with
  | none => return l
  | some p => return { l with field := some (← p.traverseRefs step) }

/-- The frame, with what the step makes of its references. -/
def Frame.traverseRefs (f : Frame) : StateM σ Frame :=
  return { f with layers := ← f.layers.mapM (Layer.traverseRefs step) }

end parts

/-- The messages only differ in references. -/
def Message.SameButRefs (m m' : Message) : Prop :=
  ∃ fs, List.Forall₂ Field.SameButRefs m.fields fs ∧ { m with fields := fs } = m'

/-- The interfaces only differ in references. -/
def Interface.SameButRefs (i i' : Interface) : Prop :=
  ∃ fs, List.Forall₂ Field.SameButRefs i.fields fs ∧ { i with fields := fs } = i'

/-- The layers only differ in references. -/
def Layer.SameButRefs (l l' : Layer) : Prop :=
  ∃ p, Option.Rel (Part.SameBut Field.SameButRefs) l.field p ∧ { l with field := p } = l'

/-- The frames only differ in references. -/
def Frame.SameButRefs (f f' : Frame) : Prop :=
  ∃ ls, List.Forall₂ Layer.SameButRefs f.layers ls ∧ { f with layers := ls } = f'

section parts
variable {σ : Type} {step : FieldRef → StateM σ FieldRef} {g : FieldRef → FieldRef}

theorem follows_message (m : Message) : Follows (fun m => memberRefs m.fields) Message.SameButRefs
    step (Message.traverseRefs step) m :=
  (follows_members fun f _ => followsField f).slot Message.fields
    (fun m fs => { m with fields := fs }) fun _ => rfl

theorem follows_interface (i : Interface) : Follows (fun i => memberRefs i.fields)
    Interface.SameButRefs step (Interface.traverseRefs step) i :=
  (follows_members fun f _ => followsField f).slot Interface.fields
    (fun i fs => { i with fields := fs }) fun _ => rfl

theorem Layer.follows (l : Layer) :
    Follows Layer.refs Layer.SameButRefs step (Layer.traverseRefs step) l := by
  obtain ⟨name, description, kind, field, line⟩ := l
  intro s s' l' h
  cases field with
  | none =>
    obtain ⟨rfl, rfl⟩ := run_pure_eq_iff.mp h
    exact ⟨⟨none, .none, rfl⟩, steps_nil⟩
  | some p =>
    obtain ⟨p', t, hp, h⟩ := run_bind_eq_iff.mp h
    obtain ⟨rfl, rfl⟩ := run_pure_eq_iff.mp h
    obtain ⟨hsame, hsteps⟩ := follows_part (fun f _ => followsField f) hp
    exact ⟨⟨some p', .some hsame, rfl⟩, hsteps⟩

theorem follows_frame (f : Frame) : Follows (fun f => f.layers.flatMap Layer.refs)
    Frame.SameButRefs step (Frame.traverseRefs step) f :=
  (follows_forall₂ fun l _ => l.follows).slot Frame.layers (fun f ls => { f with layers := ls })
    fun _ => rfl

theorem determined_message (m : Message) :
    Determined (fun m => memberRefs m.fields) Message.SameButRefs m :=
  (determined_members fun f _ => f.determined).slot Message.fields
    (fun m fs => { m with fields := fs }) fun _ => rfl

theorem determined_interface (i : Interface) :
    Determined (fun i => memberRefs i.fields) Interface.SameButRefs i :=
  (determined_members fun f _ => f.determined).slot Interface.fields
    (fun i fs => { i with fields := fs }) fun _ => rfl

theorem Layer.determined (l : Layer) : Determined Layer.refs Layer.SameButRefs l := by
  obtain ⟨name, description, kind, field, line⟩ := l
  rintro _ _ t u ⟨p, hp, rfl⟩ ⟨q, hq, rfl⟩ htu
  cases hp with
  | none =>
    cases hq
    exact ⟨rfl, htu⟩
  | some hp =>
    cases hq with
    | some hq =>
      obtain ⟨rfl, rfl⟩ := determined_part (fun f _ => f.determined) hp hq htu
      exact ⟨rfl, rfl⟩

theorem determined_frame (f : Frame) :
    Determined (fun f => f.layers.flatMap Layer.refs) Frame.SameButRefs f :=
  (determined_forall₂ fun l _ => l.determined).slot Frame.layers
    (fun f ls => { f with layers := ls }) fun _ => rfl

theorem traverseMembers_stateless_all (fs : List Field) :
    traverseMembers (stateless σ g) fs = pure (mapMemberRefs g fs) :=
  traverseMembers_stateless fun f _ => f.traverseRefs_stateless

theorem Layer.traverseRefs_stateless (l : Layer) :
    l.traverseRefs (stateless σ g) = pure (l.mapRefs g) := by
  obtain ⟨name, description, kind, field, line⟩ := l
  cases field with
  | none => rfl
  | some p =>
    have hp : p.traverseRefs (stateless σ g) = pure (p.mapRefs g) :=
      traverseRefs_stateless_part fun f _ => f.traverseRefs_stateless
    rw [Layer.traverseRefs]
    dsimp only
    rw [hp, pure_bind]
    rfl

/-- **Going through the reference of a layer**, or those of the field declared in it. -/
theorem Layer.traversal :
    Traversal Layer.refs Layer.mapRefs Layer.traverseRefs Layer.SameButRefs :=
  .of_follows (fun _ l => l.follows) determined fun _ l => l.traverseRefs_stateless

end parts

namespace Namespace

/-! ### Namespaces -/

section traversal
variable {σ : Type} (step : FieldRef → StateM σ FieldRef)

mutual

/-- The namespace, with what the step makes of its references. -/
def traverseRefs : Namespace → StateM σ Namespace
  | ⟨name, externalRef, description, fields, interfaces, messages, frames, namespaces⟩ => do
    let messages ← messages.mapM (Message.traverseRefs step)
    let interfaces ← interfaces.mapM (Interface.traverseRefs step)
    let frames ← frames.mapM (Frame.traverseRefs step)
    let namespaces ← traverseRefsIn namespaces
    return ⟨name, externalRef, description, fields, interfaces, messages, frames, namespaces⟩

/-- The namespaces, with what the step makes of their references. -/
def traverseRefsIn : List Namespace → StateM σ (List Namespace)
  | [] => return []
  | n :: ns => do
    let n ← n.traverseRefs
    let ns ← traverseRefsIn ns
    return n :: ns

end

theorem traverseRefsIn_eq_mapM (ns : List Namespace) :
    traverseRefsIn step ns = ns.mapM (traverseRefs step) := by
  induction ns with
  | nil => rw [traverseRefsIn, List.mapM_nil]
  | cons n ns ih => rw [traverseRefsIn, List.mapM_cons, ih]

end traversal

/-- The namespaces only differ in the references of their messages, interfaces and frames, and those
of the namespaces in them. The fields that they list are the same. -/
inductive SameButRefs : Namespace → Namespace → Prop
  | mk (name externalRef description : String) (fields : List (String × FieldId))
    {is is' : List Interface} {ms ms' : List Message} {fs fs' : List Frame}
    {ns ns' : List Namespace} (hi : List.Forall₂ Interface.SameButRefs is is')
    (hm : List.Forall₂ Message.SameButRefs ms ms') (hf : List.Forall₂ Frame.SameButRefs fs fs')
    (hn : List.Forall₂ SameButRefs ns ns') :
    SameButRefs ⟨name, externalRef, description, fields, is, ms, fs, ns⟩
      ⟨name, externalRef, description, fields, is', ms', fs', ns'⟩

section traversal
variable {σ : Type} {step : FieldRef → StateM σ FieldRef} {g : FieldRef → FieldRef}

theorem follows (ns : Namespace) : Follows refs SameButRefs step (traverseRefs step) ns := by
  induction ns using nested_induction with
  | step ns ih =>
    obtain ⟨name, externalRef, description, fields, is, ms, fs, nested⟩ := ns
    intro s s' ns' h
    obtain ⟨ms', t₁, hms, h⟩ := run_bind_eq_iff.mp h
    obtain ⟨is', t₂, his, h⟩ := run_bind_eq_iff.mp h
    obtain ⟨fs', t₃, hfs, h⟩ := run_bind_eq_iff.mp h
    obtain ⟨nested', t₄, hnested, h⟩ := run_bind_eq_iff.mp h
    obtain ⟨rfl, rfl⟩ := run_pure_eq_iff.mp h
    rw [traverseRefsIn_eq_mapM] at hnested
    obtain ⟨hm, hmsteps⟩ := follows_forall₂ (fun m _ => follows_message m) hms
    obtain ⟨hi, histeps⟩ := follows_forall₂ (fun i _ => follows_interface i) his
    obtain ⟨hf, hfsteps⟩ := follows_forall₂ (fun f _ => follows_frame f) hfs
    obtain ⟨hn, hnsteps⟩ := follows_forall₂ ih hnested
    refine ⟨.mk name externalRef description fields hi hm hf hn, ?_⟩
    simp only [refs, refsIn_eq_flatMap]
    exact hmsteps.append (histeps.append (hfsteps.append hnsteps))

theorem determined (ns : Namespace) : Determined refs SameButRefs ns := by
  induction ns using nested_induction with
  | step ns ih =>
    rintro _ _ t u hy hz htu
    cases hy with
    | mk name externalRef description fields hyi hym hyf hyn =>
      cases hz with
      | mk _ _ _ _ hzi hzm hzf hzn =>
        simp only [refs, refsIn_eq_flatMap, List.append_assoc] at htu
        obtain ⟨rfl, hi⟩ := determined_forall₂ (fun m _ => determined_message m) hym hzm htu
        obtain ⟨rfl, hf⟩ := determined_forall₂ (fun i _ => determined_interface i) hyi hzi hi
        obtain ⟨rfl, hn⟩ := determined_forall₂ (fun f _ => determined_frame f) hyf hzf hf
        obtain ⟨rfl, rfl⟩ := determined_forall₂ ih hyn hzn hn
        exact ⟨rfl, rfl⟩

theorem traverseRefs_stateless (ns : Namespace) :
    ns.traverseRefs (stateless σ g) = pure (ns.mapRefs g) := by
  have hm : ∀ m : Message, m.traverseRefs (stateless σ g) =
      pure { m with fields := mapMemberRefs g m.fields } := fun m => by
    rw [Message.traverseRefs, traverseMembers_stateless_all, pure_bind]
  have hi : ∀ i : Interface, i.traverseRefs (stateless σ g) =
      pure { i with fields := mapMemberRefs g i.fields } := fun i => by
    rw [Interface.traverseRefs, traverseMembers_stateless_all, pure_bind]
  have hf : ∀ f : Frame, f.traverseRefs (stateless σ g) =
      pure { f with layers := f.layers.map (·.mapRefs g) } := fun f => by
    rw [Frame.traverseRefs, mapM_stateless fun l _ => l.traverseRefs_stateless, pure_bind]
  induction ns using nested_induction with
  | step ns ih =>
    obtain ⟨name, externalRef, description, fields, is, ms, fs, nested⟩ := ns
    have hnested : nested.mapM (traverseRefs (stateless σ g)) = _ := mapM_stateless ih
    rw [traverseRefs, mapRefs, traverseRefsIn_eq_mapM, mapRefsIn_eq_map,
      mapM_stateless fun m _ => hm m, pure_bind, mapM_stateless fun i _ => hi i, pure_bind,
      mapM_stateless fun f _ => hf f, pure_bind, hnested, pure_bind]

/-- **Going through the references of a namespace**, with those of the namespaces in it. -/
theorem traversal : Traversal refs mapRefs traverseRefs SameButRefs :=
  .of_follows (fun _ ns => ns.follows) determined fun _ ns => ns.traverseRefs_stateless

end traversal

end Namespace

/-- **All traversals keep to the order in which references are collected**: those of the fields, of
the layers and of the namespaces. -/
theorem traversals : Traversal Field.refs Field.mapRefs Field.traverseRefs Field.SameButRefs ∧
    Traversal Layer.refs Layer.mapRefs Layer.traverseRefs Layer.SameButRefs ∧
    Traversal Namespace.refs Namespace.mapRefs Namespace.traverseRefs Namespace.SameButRefs :=
  ⟨Field.traversal, Layer.traversal, Namespace.traversal⟩

end WireSchema
