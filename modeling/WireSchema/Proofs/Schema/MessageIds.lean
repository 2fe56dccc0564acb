import WireSchema.Proofs.Field.Traversal
import WireSchema.Proofs.Namespace.Nesting
import WireSchema.Schema.Link

/-! # Giving numbers to messages

The numbers of all messages are found first and then given to the messages one after the other. Both
times the messages are gone through in the same order, so that each of them gets the number that was
found for it, and none is left over (`run_traverseMessages`). Hence `Schema.resolveIds` gives every
message its own number (`resolveIds_eq`). -/

namespace WireSchema.Schema

/-- The message with the number that is found for it. -/
def withNumber (number : Message → Option Int) (m : Message) : Message :=
  { m with id := number m }

variable (number : Message → Option Int)

theorem run_numberNext (m : Message) (ids : List (Option Int)) (fs : List Finding) :
    (numberNext m).run ⟨number m :: ids, fs⟩ =
      (withNumber number m, ⟨ids, fs ++ (unknownId? (withNumber number m)).toList⟩) := rfl

/-- The messages of a list get the numbers found for them, and the rest of the numbers is left. -/
theorem run_mapM_numberNext (ms : List Message) (rest : List (Option Int)) (fs : List Finding) :
    (ms.mapM numberNext).run ⟨ms.map number ++ rest, fs⟩ =
      (ms.map (withNumber number),
        ⟨rest, fs ++ (ms.map (withNumber number)).filterMap unknownId?⟩) := by
  induction ms generalizing fs with
  | nil =>
    rw [List.mapM_nil, run_pure_eq_iff]
    simp
  | cons m ms ih =>
    rw [List.mapM_cons, run_bind_eq_iff]
    refine ⟨_, _, run_numberNext number m (ms.map number ++ rest) fs, ?_⟩
    rw [run_bind_eq_iff]
    refine ⟨_, _, ih _, ?_⟩
    rw [run_pure_eq_iff, List.map_cons, List.filterMap_cons, List.append_assoc]
    refine ⟨rfl, ?_⟩
    cases unknownId? (withNumber number m) <;> rfl

end WireSchema.Schema

namespace WireSchema.Namespace

open Schema

variable (number : Message → Option Int)

mutual

/-- **The messages of a namespace get the numbers that were found for them** when these are in the
order of `allMessages`. -/
theorem run_traverseMessages (rest : List (Option Int)) (fs : List Finding) :
    ∀ n : Namespace, (n.traverseMessages numberNext).run ⟨n.allMessages.map number ++ rest, fs⟩ =
      (n.mapMessages (withNumber number),
        ⟨rest, fs ++ (n.mapMessages (withNumber number)).allMessages.filterMap unknownId?⟩)
  | ⟨name, externalRef, description, fields, interfaces, messages, frames, namespaces⟩ => by
    rw [traverseMessages, allMessages, List.map_append, List.append_assoc, run_bind_eq_iff]
    refine ⟨_, _, run_mapM_numberNext number messages _ fs, ?_⟩
    rw [run_bind_eq_iff]
    refine ⟨_, _, run_traverseMessagesIn rest _ namespaces, ?_⟩
    rw [run_pure_eq_iff, mapMessages, allMessages, List.filterMap_append, List.append_assoc]
    exact ⟨rfl, rfl⟩

theorem run_traverseMessagesIn (rest : List (Option Int)) (fs : List Finding) :
    ∀ ns : List Namespace,
      (traverseMessagesIn numberNext ns).run ⟨(allMessagesIn ns).map number ++ rest, fs⟩ =
        (mapMessagesIn (withNumber number) ns, ⟨rest, fs ++
          (allMessagesIn (mapMessagesIn (withNumber number) ns)).filterMap unknownId?⟩)
  | [] => by
    rw [traverseMessagesIn, mapMessagesIn, allMessagesIn, run_pure_eq_iff]
    simp
  | n :: ns => by
    rw [traverseMessagesIn, allMessagesIn, List.map_append, List.append_assoc, run_bind_eq_iff]
    refine ⟨_, _, run_traverseMessages _ fs n, ?_⟩
    rw [run_bind_eq_iff]
    refine ⟨_, _, run_traverseMessagesIn rest _ ns, ?_⟩
    rw [run_pure_eq_iff, mapMessagesIn, allMessagesIn, List.filterMap_append, List.append_assoc]
    exact ⟨rfl, rfl⟩

end

end WireSchema.Namespace

namespace WireSchema.Schema

/-- The namespaces of the schema with every message numbered. -/
def numberedRoot (s : Schema) : Namespace :=
  s.root.mapMessages (withNumber (messageId? s.root s.arena))

/-- **Every message gets its own number**, and those without one are reported in their order. -/
theorem resolveIds_eq (s : Schema) : s.resolveIds =
    ({ s with root := s.numberedRoot }, s.numberedRoot.allMessages.filterMap unknownId?) := by
  have hrun : (s.root.traverseMessages numberNext).run
      ⟨s.root.allMessages.map (messageId? s.root s.arena), []⟩ =
      (s.numberedRoot, ⟨[], s.numberedRoot.allMessages.filterMap unknownId?⟩) := by
    have h := Namespace.run_traverseMessages (messageId? s.root s.arena) [] [] s.root
    rwa [List.append_nil] at h
  unfold resolveIds
  dsimp only
  rw [hrun]

end WireSchema.Schema
