import WireSchema.Proofs.Namespace.Traversal
import WireSchema.Schema.Link

/-! # Binding as a traversal

The paths of all references can be looked up first, once each, and the references then be bound one
after the other, with an error for each path that led nowhere. Since going through the references
meets the collected paths and no others, this is `Schema.bindRefs` (`run_bindInOrder`). -/

namespace WireSchema.Schema

/-- The fields that the collected paths lead to. -/
def targets (s : Schema) (path : String) : Option FieldId :=
  if path ∈ s.refs.map (·.path) then s.root.findField? path else none

/-- Binds a reference to the field found for its path, and reports it if there is none. -/
def bindStep (targets : String → Option FieldId) (r : FieldRef) :
    StateM (List Finding) FieldRef := do
  if (targets r.path).isNone then
    modify (· ++ [⟨r.line, .error (.unresolvedReference r.path)⟩])
  return { r with target := targets r.path }

/-- Goes through the fields of the arena and then through the namespaces, and binds what it
meets. -/
def bindInOrder (s : Schema) : StateM (List Finding) Schema := do
  let fields ← traverseMembers (bindStep s.targets) s.arena.fields.toList
  let root ← s.root.traverseRefs (bindStep s.targets)
  return { s.withArena ⟨fields.toArray⟩ with root }

theorem run_bindStep {root : Namespace} {targets : String → Option FieldId} {r : FieldRef}
    (h : targets r.path = root.findField? r.path) (found : List Finding) :
    (bindStep targets r).run found =
      (bind root r, found ++ (unresolved? root r).toList) := by
  unfold bindStep bind unresolved?
  rw [h]
  cases root.findField? r.path with
  | none => rfl
  | some id => exact congrArg (Prod.mk _) (List.append_nil found).symm

theorem steps_bindStep {root : Namespace} {targets : String → Option FieldId}
    {rs : List FieldRef} (h : ∀ r ∈ rs, targets r.path = root.findField? r.path)
    (found : List Finding) :
    Steps (bindStep targets) found rs (rs.map (bind root))
      (found ++ rs.filterMap (unresolved? root)) := by
  induction rs generalizing found with
  | nil => rw [List.filterMap_nil, List.append_nil]; exact steps_nil
  | cons r rs ih =>
    have hr := run_bindStep (h r List.mem_cons_self) found
    have hrs := ih (fun r hr => h r (List.mem_cons_of_mem _ hr))
      (found ++ (unresolved? root r).toList)
    have hfound : found ++ (r :: rs).filterMap (unresolved? root) =
        found ++ (unresolved? root r).toList ++ rs.filterMap (unresolved? root) := by
      rw [List.filterMap_cons, List.append_assoc]
      cases unresolved? root r <;> rfl
    rw [List.map_cons, hfound]
    exact .cons hr hrs

/-- **Binding one reference after the other** to the fields that the collected paths lead to is
binding all of them, with the same errors in the same order. -/
theorem run_bindInOrder (s : Schema) : s.bindInOrder.run [] = s.bindRefs := by
  have htargets : ∀ r ∈ s.refs, s.targets r.path = s.root.findField? r.path := fun r hr =>
    if_pos (List.mem_map_of_mem hr)
  have hrefs : s.refs = memberRefs s.arena.fields.toList ++ s.root.refs := by
    rw [refs, memberRefs_eq_flatMap]
  rw [hrefs] at htargets
  obtain ⟨hsame, hmembers⟩ := (traversal_members.mapRefs_iff (bind s.root) _ _).mp rfl
  obtain ⟨hsame', hroot⟩ := (Namespace.traversal.mapRefs_iff (bind s.root) s.root _).mp rfl
  have harena : (traverseMembers (bindStep s.targets) s.arena.fields.toList).run [] =
      (mapMemberRefs (bind s.root) s.arena.fields.toList,
        (memberRefs s.arena.fields.toList).filterMap (unresolved? s.root)) := by
    rw [traversal_members.run_iff, hmembers]
    exact ⟨hsame, steps_bindStep (fun r hr => htargets r (List.mem_append_left _ hr)) []⟩
  have hspaces : (s.root.traverseRefs (bindStep s.targets)).run
      ((memberRefs s.arena.fields.toList).filterMap (unresolved? s.root)) =
      (s.root.mapRefs (bind s.root), s.refs.filterMap (unresolved? s.root)) := by
    rw [Namespace.traversal.run_iff, hroot, hrefs, List.filterMap_append]
    exact ⟨hsame', steps_bindStep (fun r hr => htargets r (List.mem_append_right _ hr)) _⟩
  have hfields : (mapMemberRefs (bind s.root) s.arena.fields.toList).toArray =
      s.arena.fields.map (Field.mapRefs (bind s.root)) := by
    rw [mapMemberRefs_eq_map, ← Array.toList_map, Array.toArray_toList]
  rw [bindInOrder, run_bind_eq_iff]
  refine ⟨_, _, harena, ?_⟩
  rw [run_bind_eq_iff]
  refine ⟨_, _, hspaces, ?_⟩
  rw [run_pure_eq_iff, hfields]
  exact ⟨rfl, rfl⟩

end WireSchema.Schema
