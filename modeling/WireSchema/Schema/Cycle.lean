import WireSchema.Field.Arena
import WireSchema.Finding.Finding

/-! # Cycles of references

The fields of an arena and their bound references are a graph. A search in depth finds the edges
that lead back to a field which is still being searched; they are unbound, and the graph that is
left has no cycle. One error is reported for each of them.
-/

namespace WireSchema

namespace Arena

/-- The places that the references of a field are bound to, in order. -/
def edges (a : Arena) (id : FieldId) : List FieldId :=
  match a.get? id with
  | none => []
  | some f => f.refs.filterMap (·.target)

/-- A field that is being searched, and the edges from it that are still to be followed. -/
structure Searched where
  node : FieldId
  pending : List FieldId

/-- What is still to be done for the fields being searched. -/
def work : List Searched → Nat
  | [] => 0
  | s :: below => s.pending.length + 1 + work below

/-- What is still to be done for the fields that no search has reached. -/
def freshWork (edges : FieldId → List FieldId) : List FieldId → Nat
  | [] => 0
  | start :: fresh => (edges start).length + 2 + freshWork edges fresh

theorem freshWork_erase (edges : FieldId → List FieldId) {fresh : List FieldId} {target : FieldId}
    (h : target ∈ fresh) :
    freshWork edges (fresh.erase target) + ((edges target).length + 2) = freshWork edges fresh := by
  induction fresh with
  | nil => simp at h
  | cons start fresh ih =>
    by_cases hs : start = target
    · subst hs
      rw [List.erase_cons_head, freshWork]
      omega
    · rw [List.erase_cons_tail (by simpa using hs), freshWork, freshWork]
      rcases List.mem_cons.mp h with h | h
      · exact absurd h.symm hs
      · have := ih h
        omega

/-- Searches in depth. `fresh` are the fields that no search has reached, `stack` those being
searched, the innermost one first, and `found` the edges that lead back to one of them, in the order
they were met. -/
def search (edges : FieldId → List FieldId) (fresh : List FieldId) (stack : List Searched)
    (found : List (FieldId × FieldId)) : List (FieldId × FieldId) :=
  match stack with
  | [] =>
    match fresh with
    | [] => found
    | start :: fresh => search edges fresh [⟨start, edges start⟩] found
  | ⟨_, []⟩ :: below => search edges fresh below found
  | ⟨node, target :: pending⟩ :: below =>
    let rest := ⟨node, pending⟩ :: below
    if target ∈ fresh then
      search edges (fresh.erase target) (⟨target, edges target⟩ :: rest) found
    else if rest.any (·.node == target) then search edges fresh rest (found ++ [(node, target)])
    else search edges fresh rest found
termination_by freshWork edges fresh + work stack
decreasing_by
  · simp only [freshWork, work]
    omega
  · simp only [work]
    omega
  · rename_i h
    have := freshWork_erase edges h
    simp only [work, List.length_cons]
    omega
  · simp only [work, List.length_cons]
    omega
  · simp only [work, List.length_cons]
    omega

/-- The edges that close cycles. -/
def backEdges (a : Arena) : List (FieldId × FieldId) :=
  search a.edges (List.range a.size) [] []

/-- The reference without the place, if it is bound to that one. -/
def unbind (place : FieldId) (r : FieldRef) : FieldRef :=
  if r.target == some place then { r with target := none } else r

/-- The error about a cycle that a reference of the field closes. -/
def cycleError (f : Field) : Finding :=
  ⟨f.core.line, .error (.referenceCycle (if f.externalRef.isEmpty then f.name else f.externalRef))⟩

/-- Unbinds the edges in order. -/
def cutEdges (a : Arena) : List (FieldId × FieldId) → Arena × List Finding
  | [] => (a, [])
  | (source, target) :: rest =>
    match a.get? source with
    | none => cutEdges a rest
    | some f =>
      let r := cutEdges (a.set source (f.mapRefs (unbind target))) rest
      (r.1, cycleError f :: r.2)

/-- The arena without the references that close cycles, and the errors about them. -/
def breakCycles (a : Arena) : Arena × List Finding := a.cutEdges a.backEdges

end Arena

end WireSchema
