import WireSchema.Proofs.Schema.Fields
import WireSchema.Proofs.Schema.Order
import WireSchema.Proofs.Session.Validation

/-! # Looking things up in a session

At any time the schema of a session is one that documents build, or such a schema linked
(`sourced_after`). So all of its lists are in order, and whatever has a path is found under it
(`declarations_are_found_by_their_paths`). -/

namespace WireSchema

open Markup

/-- The lists of the namespace are in the order of names, without a name twice. -/
structure Namespace.InOrder (ns : Namespace) : Prop where
  fields : SortedBy Prod.fst ns.fields
  interfaces : SortedBy Interface.name ns.interfaces
  messages : SortedBy Message.name ns.messages
  frames : SortedBy Frame.name ns.frames
  namespaces : SortedBy Namespace.name ns.namespaces

/-- In the lists of the namespace, halving finds what is there. -/
structure Namespace.FoundByHalving (ns : Namespace) : Prop where
  fields : ∀ key, halveNamed? Prod.fst key ns.fields = findNamed? Prod.fst key ns.fields
  interfaces : ∀ key,
    halveNamed? Interface.name key ns.interfaces = findNamed? Interface.name key ns.interfaces
  messages : ∀ key,
    halveNamed? Message.name key ns.messages = findNamed? Message.name key ns.messages
  frames : ∀ key, halveNamed? Frame.name key ns.frames = findNamed? Frame.name key ns.frames
  namespaces : ∀ key,
    halveNamed? Namespace.name key ns.namespaces = findNamed? Namespace.name key ns.namespaces

theorem Namespace.InOrder.foundByHalving {ns : Namespace} (h : ns.InOrder) : ns.FoundByHalving where
  fields _ := halveNamed?_eq_findNamed? h.fields
  interfaces _ := halveNamed?_eq_findNamed? h.interfaces
  messages _ := halveNamed?_eq_findNamed? h.messages
  frames _ := halveNamed?_eq_findNamed? h.frames
  namespaces _ := halveNamed?_eq_findNamed? h.namespaces

theorem Schema.Arranged.inOrder {s : Schema} (h : s.Arranged) {n : Namespace}
    (hn : n.Within s.root) : n.InOrder where
  fields := (h.indexed.orderly n hn).sorted_fields
  interfaces := (h.tidy n hn).interfaces.sorted
  messages := (h.tidy n hn).messages.sorted
  frames := (h.tidy n hn).frames.sorted
  namespaces := (h.indexed.orderly n hn).sorted_namespaces

namespace Session

variable {s : Session} {schema : Schema}

/-! ### Where the schema comes from -/

/-- Documents build the schema, or they build the one that was linked. -/
def Sourced (s : Session) : Prop := ∀ schema, s.schema = some schema →
  ∃ built : Schema, built.Built ∧ (schema = built ∨ schema = built.link.1)

theorem schema_parseElement_of_validated (h : s.validated.isSome = true) (root : Element) :
    (s.parseElement root).1.schema = s.schema := by
  unfold parseElement
  rw [if_pos h]
  rfl

theorem schema_parseNamed_of_validated (h : s.validated.isSome = true) (name text : String) :
    (s.parseNamed name text).1.schema = s.schema := by
  unfold parseNamed
  dsimp only
  split
  · rfl
  · have hsource : ({ s with journal := s.journal.withSource name } : Session).validated.isSome =
        true := h
    exact schema_parseElement_of_validated hsource _

/-- **After the check the schema stays as it is.** -/
theorem schema_perform_of_validated (h : s.validated.isSome = true) (call : Call) :
    (s.perform call).schema = s.schema := by
  cases call with
  | listen => rfl
  | element root => exact schema_parseElement_of_validated h root
  | named name text => exact schema_parseNamed_of_validated h name text
  | file path content =>
    cases content with
    | error fault => rfl
    | ok text => exact schema_parseNamed_of_validated h path text
  | validate =>
    obtain ⟨result, hresult⟩ := Option.isSome_iff_exists.mp h
    show s.validate.1.schema = s.schema
    unfold validate
    rw [hresult]

/-- The check links the schema, or leaves it as it is. -/
theorem schema_runValidation (s : Session) :
    s.runValidation.1.schema = s.schema ∨
      ∃ schema, s.schema = some schema ∧ s.runValidation.1.schema = some schema.link.1 := by
  unfold runValidation
  cases hschema : s.schema with
  | none => exact Or.inl hschema
  | some schema =>
    cases s.config.forcedVersion with
    | none => exact Or.inr ⟨schema, rfl, schema_linkAndCheck s schema⟩
    | some forced =>
      dsimp only
      split_ifs
      · exact Or.inl hschema
      · exact Or.inr ⟨schema, rfl, schema_linkAndCheck s schema⟩

theorem Sourced.validate (hr : s.Reachable) (h : s.Sourced) : s.validate.1.Sourced := by
  unfold Session.validate
  cases hvalidated : s.validated with
  | some result => exact h
  | none =>
    intro schema hschema
    rcases s.schema_runValidation with hsame | ⟨built, hbuilt, hlink⟩
    · exact h schema (hsame.symm.trans hschema)
    · have heq : some built.link.1 = some schema := hlink.symm.trans hschema
      exact ⟨built, hr.built hvalidated built hbuilt, Or.inr (Option.some.inj heq).symm⟩

theorem Sourced.perform (hr : s.Reachable) (h : s.Sourced) (call : Call) :
    (s.perform call).Sourced := by
  by_cases hcall : call = .validate
  · rw [hcall]
    exact h.validate hr
  · cases hvalidated : s.validated with
    | none =>
      intro schema hschema
      have hnone := (validated_perform hcall).trans hvalidated
      exact ⟨schema, (hr.perform call).built hnone schema hschema, Or.inl rfl⟩
    | some result =>
      intro schema hschema
      rw [schema_perform_of_validated (by rw [hvalidated]; rfl)] at hschema
      exact h schema hschema

theorem Sourced.run (hr : s.Reachable) (h : s.Sourced) (calls : List Call) :
    (s.run calls).Sourced := by
  induction calls generalizing s with
  | nil => exact h
  | cons call calls ih => exact ih (hr.perform call) (h.perform hr call)

/-- **In every run the schema is one that documents build, or such a schema linked.** -/
theorem sourced_after (config : Config) (calls : List Call) : (after config calls).Sourced := by
  refine Sourced.run (reachable_start config) (fun schema h => ?_) calls
  simp [start] at h

theorem Sourced.arranged (h : s.Sourced) (hschema : s.schema = some schema) : schema.Arranged := by
  obtain ⟨built, hbuilt, rfl | rfl⟩ := h schema hschema
  · exact hbuilt.arranged
  · exact hbuilt.arranged.link

/-- In every run, an enumeration or set is in the schema as it was read. -/
theorem Sourced.isRead {f : Field} (h : s.Sourced) (hschema : s.schema = some schema)
    (hf : schema.Contains f) (hkind : f.kind = .enum ∨ f.kind = .set) : f.IsRead := by
  obtain ⟨built, hbuilt, rfl | rfl⟩ := h schema hschema
  · exact hbuilt.forall_contains (fun ctx nested pos e f hf => ⟨ctx, nested, pos, e, hf⟩) hf
  · exact hbuilt.isRead_link hf hkind

/-! ### Finding declarations -/

/-- **Declarations are found by their paths.** In every run, before and after the check, the lists
of all namespaces are in order, so that halving finds what is in them; a path leads to the place of
the one field that has it; each place of the arena is listed once; and a message, a frame or an
interface with a name is what its path leads to, and no other path leads to it. -/
theorem declarations_are_found_by_their_paths (config : Config) (calls : List Call)
    (schema : Schema) (h : (after config calls).schema = some schema) :
    (∀ n : Namespace, n.Within schema.root → n.InOrder ∧ n.FoundByHalving) ∧
    (∀ path id, (after config calls).findFieldId? path = some id ↔
      id < schema.arena.size ∧ (schema.arena.get? id).map Field.externalRef = some path) ∧
    schema.root.allFields.Perm (List.range schema.arena.size) ∧
    (∀ id < schema.arena.size, ∃! n : Namespace,
      n.Within schema.root ∧ id ∈ n.fields.map (·.2)) ∧
    ∀ n : Namespace, n.Within schema.root →
      (∀ m ∈ n.messages, ∀ path,
        (after config calls).findMessage? path = some m ↔ path = m.externalRef) ∧
      (∀ f ∈ n.frames, ∀ path,
        (after config calls).findFrame? path = some f ↔ path = f.externalRef) ∧
      ∀ i ∈ n.interfaces, i.name ≠ "" → ∀ path,
        (after config calls).findInterface? path = some i ↔ path = i.externalRef := by
  have harranged := (sourced_after config calls).arranged h
  unfold findFieldId? findMessage? findFrame? findInterface?
  rw [h]
  refine ⟨fun n hn => ⟨harranged.inOrder hn, (harranged.inOrder hn).foundByHalving⟩, ?_,
    harranged.indexed.listed, fun id => harranged.indexed.existsUnique_lists,
    fun n hn => ⟨?_, ?_, ?_⟩⟩
  · intro path id
    rw [Option.bind_some, harranged.indexed.findField?_eq_some_iff, Option.map_eq_some_iff]
    exact ⟨fun ⟨f, hf, hp⟩ => ⟨Arena.lt_size_of_get? hf, f, hf, hp⟩, fun hid => hid.2⟩
  · exact fun m hm path => harranged.findMessage?_eq_some_iff hn hm path
  · exact fun f hf path => harranged.findFrame?_eq_some_iff hn hf path
  · exact fun i hi hne path => harranged.findInterface?_eq_some_iff hn hi hne path

/-- A document with a field, and with an interface, a message and a frame in a namespace. -/
def nestedDocument : Element :=
  ⟨"schema", [("name", "P")],
    [⟨"int", [("name", "A"), ("type", "uint8")], [], "", 1⟩,
      ⟨"ns", [("name", "N")],
        [⟨"interface", [("name", "I")], [], "", 3⟩,
          ⟨"message", [("name", "M"), ("id", "1")], [], "", 4⟩,
          ⟨"frame", [("name", "F")], [⟨"payload", [("name", "D")], [], "", 5⟩], "", 5⟩],
        "", 2⟩],
    "", 1⟩

/-- A session that has taken and checked `nestedDocument`. -/
def nestedSession : Session := after ⟨none, 0, none, false⟩ [.element nestedDocument, .validate]

/-- The declarations of the session are found under their paths only. -/
theorem declarations_of_nestedSession :
    ∃ (schema : Schema) (n : Namespace) (m : Message) (f : Frame) (i : Interface),
      nestedSession.schema = some schema ∧ n.Within schema.root ∧ m ∈ n.messages ∧
      f ∈ n.frames ∧ i ∈ n.interfaces ∧ i.name ≠ "" ∧
      nestedSession.findFieldId? "A" = some 0 ∧
      (∃! n : Namespace, n.Within schema.root ∧ 0 ∈ n.fields.map (·.2)) ∧
      (∀ path, nestedSession.findMessage? path = some m ↔ path = "N.M") ∧
      (∀ path, nestedSession.findFrame? path = some f ↔ path = "N.F") ∧
      ∀ path, nestedSession.findInterface? path = some i ↔ path = "N.I" := by
  have hsession : (nestedSession.schema.bind fun schema => (schema.root.child? "N").bind fun n =>
      n.messages.head?.bind fun m => n.frames.head?.bind fun f => n.interfaces.head?.map fun i =>
        (m.externalRef, f.externalRef, i.externalRef, i.name)) =
      some ("N.M", "N.F", "N.I", "I") := by decide +kernel
  simp only [Option.bind_eq_some_iff, Option.map_eq_some_iff, Prod.mk.injEq] at hsession
  obtain ⟨schema, hschema, n, hn, m, hm, f, hf, i, hi, hmref, hfref, hiref, hname⟩ := hsession
  have hwithin : n.Within schema.root :=
    Relation.ReflTransGen.single (List.mem_of_find?_eq_some hn)
  have hmem := List.mem_of_mem_head? hm
  have hfmem := List.mem_of_mem_head? hf
  have himem := List.mem_of_mem_head? hi
  have hne : i.name ≠ "" := by rw [hname]; decide
  have hfield : nestedSession.findFieldId? "A" = some 0 := by decide +kernel
  obtain ⟨-, hids, -, hlisted, hfound⟩ :=
    declarations_are_found_by_their_paths _ _ schema hschema
  obtain ⟨hmessage, hframe, hinterface⟩ := hfound n hwithin
  refine ⟨schema, n, m, f, i, hschema, hwithin, hmem, hfmem, himem, hne, hfield,
    hlisted 0 ((hids _ _).mp hfield).1, ?_, ?_, ?_⟩
  · rw [← hmref]
    exact hmessage m hmem
  · rw [← hfref]
    exact hframe f hfmem
  · rw [← hiref]
    exact hinterface i himem hne

end Session

end WireSchema
