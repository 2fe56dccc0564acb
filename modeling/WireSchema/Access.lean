import WireSchema.Field.Arena

/-! # Fields in use

A generator records the fields that it needs, and then takes the pending ones, emits them and
records what they refer to, until nothing is pending. All the pending fields are taken in one pass.
Every pass emits a field that was not emitted before, so that there are no more passes than fields.
-/

namespace WireSchema

/-- The fields that were recorded and those that were emitted, each in the order of the arena. -/
structure AccessLog where
  accessed : List FieldId
  emitted : List FieldId

/-- The places in order with one more. -/
def insertPlace (id : FieldId) : List FieldId → List FieldId
  | [] => [id]
  | x :: xs => if id < x then id :: x :: xs else if id = x then x :: xs else x :: insertPlace id xs

namespace AccessLog

/-- No field is in use. -/
def empty : AccessLog := ⟨[], []⟩

/-- The field was recorded. -/
def isAccessed (l : AccessLog) (id : FieldId) : Bool := l.accessed.contains id

/-- Records a field. -/
def record (l : AccessLog) (id : FieldId) : AccessLog :=
  { l with accessed := insertPlace id l.accessed }

/-- Records fields. -/
def recordAll (l : AccessLog) (ids : List FieldId) : AccessLog := ids.foldl record l

/-- Records what a field refers to. -/
def recordRefs (l : AccessLog) (f : Field) : AccessLog :=
  l.recordAll (f.refs.filterMap (·.target))

/-- Records what the fields refer to. -/
def recordRefsAll (l : AccessLog) (fs : List Field) : AccessLog := fs.foldl recordRefs l

/-- Notes that a field was emitted. -/
def markEmitted (l : AccessLog) (id : FieldId) : AccessLog :=
  { l with emitted := insertPlace id l.emitted }

/-- The fields that were recorded and not emitted. -/
def pending (l : AccessLog) : List FieldId := l.accessed.filter fun id => !l.emitted.contains id

/-- Emits a field: it is marked, and what it refers to is recorded. -/
def emit (a : Arena) (l : AccessLog) (id : FieldId) : AccessLog :=
  match a.get? id with
  | some f => (l.markEmitted id).recordRefs f
  | none => l.markEmitted id

/-- What a run leaves: the log, the number of passes, and the emitted fields in order. -/
structure Run where
  log : AccessLog
  passes : Nat
  order : List FieldId

/-- Takes at most `limit` passes. -/
def runWithin (a : Arena) : Nat → AccessLog → Run
  | 0, l => ⟨l, 0, []⟩
  | limit + 1, l =>
    match l.pending with
    | [] => ⟨l, 0, []⟩
    | ids =>
      let r := runWithin a limit (ids.foldl (emit a) l)
      ⟨r.log, r.passes + 1, ids ++ r.order⟩

/-- Emits the pending fields and what they refer to, until nothing is pending. -/
def run (a : Arena) (l : AccessLog) : Run := runWithin a a.size l

end AccessLog

end WireSchema
