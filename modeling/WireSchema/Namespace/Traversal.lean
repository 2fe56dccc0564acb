import WireSchema.Field.Completion
import WireSchema.Namespace.Basic

/-! # Going through a namespace

Fields of messages, interfaces and layers are part of the namespace, unlike those in the arena.
Their references, and the steps that change them, are taken in one order: messages, interfaces,
frames, nested namespaces.
-/

namespace WireSchema.Namespace

mutual

/-- The references in a namespace, without those in the arena. -/
def refs : Namespace → List FieldRef
  | ⟨_, _, _, _, interfaces, messages, frames, namespaces⟩ =>
    messages.flatMap (fun m => memberRefs m.fields) ++
      (interfaces.flatMap (fun i => memberRefs i.fields) ++
        (frames.flatMap (fun f => f.layers.flatMap Layer.refs) ++ refsIn namespaces))

/-- The references in the namespaces. -/
def refsIn : List Namespace → List FieldRef
  | [] => []
  | n :: ns => n.refs ++ refsIn ns

end

mutual

/-- The namespace with its references changed. -/
def mapRefs (g : FieldRef → FieldRef) : Namespace → Namespace
  | ⟨name, externalRef, description, fields, interfaces, messages, frames, namespaces⟩ =>
    ⟨name, externalRef, description, fields,
      interfaces.map fun i => { i with fields := mapMemberRefs g i.fields },
      messages.map fun m => { m with fields := mapMemberRefs g m.fields },
      frames.map fun f => { f with layers := f.layers.map (·.mapRefs g) },
      mapRefsIn g namespaces⟩

/-- The namespaces with their references changed. -/
def mapRefsIn (g : FieldRef → FieldRef) : List Namespace → List Namespace
  | [] => []
  | n :: ns => n.mapRefs g :: mapRefsIn g ns

end

section
variable {σ : Type} (step : Message → StateM σ Message)

mutual

/-- The namespace, with what the step makes of its messages and then of those of the nested
namespaces. -/
def traverseMessages : Namespace → StateM σ Namespace
  | ⟨name, externalRef, description, fields, interfaces, messages, frames, namespaces⟩ => do
    let messages ← messages.mapM step
    let namespaces ← traverseMessagesIn namespaces
    return ⟨name, externalRef, description, fields, interfaces, messages, frames, namespaces⟩

/-- The namespaces, with what the step makes of their messages. -/
def traverseMessagesIn : List Namespace → StateM σ (List Namespace)
  | [] => return []
  | n :: ns => do
    let n ← n.traverseMessages
    let ns ← traverseMessagesIn ns
    return n :: ns

end

end

/-- The results of a step that changes each item and finds something, put together. -/
def collect {α : Type} (step : α → α × List Finding) (xs : List α) : List α × List Finding :=
  (xs.map fun x => (step x).1, xs.flatMap fun x => (step x).2)

/-- The layer with its field completed, if the field is declared inside. -/
def completeLayer (a : Arena) (l : Layer) : Layer × List Finding :=
  match l.field with
  | some (.inline f) =>
    let r := f.complete a
    ({ l with field := some (.inline r.1) }, r.2)
  | _ => (l, [])

/-- The message with its fields completed. -/
def completeMessage (a : Arena) (m : Message) : Message × List Finding :=
  let r := completeMembers a m.fields
  ({ m with fields := r.1 }, r.2)

/-- The interface with its fields completed. -/
def completeInterface (a : Arena) (i : Interface) : Interface × List Finding :=
  let r := completeMembers a i.fields
  ({ i with fields := r.1 }, r.2)

/-- The frame with the fields of its layers completed. -/
def completeFrame (a : Arena) (f : Frame) : Frame × List Finding :=
  let r := collect (completeLayer a) f.layers
  ({ f with layers := r.1 }, r.2)

mutual

/-- The namespace with the fields that are part of it completed. -/
def complete (a : Arena) : Namespace → Namespace × List Finding
  | ⟨name, externalRef, description, fields, interfaces, messages, frames, namespaces⟩ =>
    let ms := collect (completeMessage a) messages
    let is := collect (completeInterface a) interfaces
    let fs := collect (completeFrame a) frames
    let ns := completeIn a namespaces
    (⟨name, externalRef, description, fields, is.1, ms.1, fs.1, ns.1⟩,
      ms.2 ++ (is.2 ++ (fs.2 ++ ns.2)))

/-- The namespaces with the fields that are part of them completed. -/
def completeIn (a : Arena) : List Namespace → List Namespace × List Finding
  | [] => ([], [])
  | n :: ns =>
    let n := n.complete a
    let ns := completeIn a ns
    (n.1 :: ns.1, n.2 ++ ns.2)

end

end WireSchema.Namespace
