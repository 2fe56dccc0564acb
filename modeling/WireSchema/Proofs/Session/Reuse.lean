import WireSchema.Proofs.Namespace.Turns
import WireSchema.Proofs.Session.Lookup
import WireSchema.Proofs.Session.Validation

/-! # Reuse in a session

In every run, the field declarations of the documents have their turns one after the other
(`trace`). What a declaration reuses is found if and only if it was accepted in an earlier turn
(`reuse_finds_earlier_turns`), which need not be earlier in the document
(`reuse_of_earlyBaseDocument`). -/

namespace WireSchema

open Markup

/-! ### One document -/

namespace Schema

variable {s : Schema} {e : Element}

/-- The document names the schema. -/
def isNamedBy (s : Schema) (e : Element) : Bool :=
  match (e.props properties).single "name" with
  | .ok (some name) => name == s.name
  | _ => false

/-- The turns of the field declarations of a document. -/
def attempts (s : Schema) (e : Element) : List Attempt :=
  if s.isNamedBy e then Population.attempts ⟨s.version, s.endian⟩ ⟨s.root, s.catalogue⟩ e else []

/-- **The turns of a document lead from the catalogue before it to the one after it**, and those
that fail are reported. -/
theorem chain_attempts (s : Schema) (e : Element) :
    Chain s.catalogue (s.attempts e) (s.addDocument e).schema.catalogue ∧
      ∀ x ∈ s.attempts e, ∀ err, x.outcome = .error (.error err) →
        ⟨x.element.line, .error err⟩ ∈ (s.addDocument e).findings := by
  have hrecords := Population.records_attempts ⟨s.version, s.endian⟩ e properties
    ⟨s.root, s.catalogue⟩
  unfold attempts addDocument
  dsimp only
  split_ifs with hnamed hnot hnot
  · change (!s.isNamedBy e) = true at hnot
    simp [hnamed] at hnot
  · refine ⟨hrecords.chain, fun x hx err herr => ?_⟩
    exact List.mem_append_right _ (hrecords.reported x hx err herr)
  · exact ⟨.nil _, fun x hx => absurd hx List.not_mem_nil⟩
  · change ¬ (!s.isNamedBy e) = true at hnot
    simp [hnamed] at hnot

theorem map_declaration_attempts (hs : s.Indexed) (e : Element) :
    (s.attempts e).map Attempt.declaration =
      if s.isNamedBy e then fieldDeclarations "" e else [] := by
  unfold attempts
  split_ifs
  · rw [Population.map_declaration_attempts _ _ _ hs.orderly, hs.externalRef]
  · rfl

end Schema

namespace Session

variable {s : Session} {schema : Schema} {root : Element} {call : Call} {calls : List Call}

/-! ### One call -/

/-- The document that a call brings, if it can be read. -/
def Call.root? : Call → Option Element
  | .element root => some root
  | .named _ text => (Markup.parse text).toOption
  | .file _ content => content.toOption.bind fun text => (Markup.parse text).toOption
  | .listen => none
  | .validate => none

/-- The schema that a document is added to: the one that there is, or the one that a first document
begins. After the check there is none. -/
def receiver? (s : Session) (root : Element) : Option Schema :=
  if s.validated.isSome then none
  else match s.schema with
    | some schema => some schema
    | none => (Schema.read root).result.toOption

/-- The catalogue of the schema. -/
def catalogue (s : Session) : Catalogue := (s.schema.map Schema.catalogue).getD ⟨.empty, []⟩

/-- The error is in the journal. -/
def Reports (s : Session) (line : Nat) (err : SchemaError) : Prop :=
  ∃ d ∈ s.journal.diagnostics.toList, d.severity = .error ∧ d.line = line ∧ d.message = err.message

theorem Reports.keeps {later : Session} {line : Nat} {err : SchemaError} (h : s.Reports line err)
    (hkeeps : Keeps s later) : later.Reports line err := by
  obtain ⟨d, hd, hrest⟩ := h
  exact ⟨d, hkeeps.mem hd, hrest⟩

theorem reports_addTo {line : Nat} {err : SchemaError}
    (h : ⟨line, .error err⟩ ∈ (schema.addDocument root).findings) :
    (s.addTo schema root).1.Reports line err := by
  refine ⟨s.journal.entry ⟨line, .error err⟩, ?_, ?_, rfl, rfl⟩
  · rw [journal_addTo, Journal.toList_addAll]
    exact List.mem_append_right _ (List.mem_map_of_mem h)
  · exact Journal.severity_entry_eq_error_iff.mpr (Or.inl rfl)

/-- A call that brings a document gives it to the session under a source. -/
theorem exists_source_perform_eq (h : call.root? = some root) : ∃ source : String,
    s.perform call = (parseElement { s with journal := s.journal.withSource source } root).1 := by
  have hnamed {name text : String} (h : (Markup.parse text).toOption = some root) :
      (s.parseNamed name text).1 =
        (parseElement { s with journal := s.journal.withSource name } root).1 := by
    unfold parseNamed
    cases hparse : Markup.parse text with
    | error fault => simp [hparse, Except.toOption] at h
    | ok root' =>
      rw [hparse] at h
      cases h
      rfl
  cases call with
  | element root' =>
    cases h
    exact ⟨s.journal.source, rfl⟩
  | named name text => exact ⟨_, hnamed h⟩
  | file path content =>
    cases content with
    | error fault => cases h
    | ok text => exact ⟨_, hnamed h⟩
  | listen => cases h
  | validate => cases h

/-- A call that brings a document gives it to the session, perhaps under another source. -/
theorem exists_perform_eq (h : call.root? = some root) :
    ∃ journal : Journal, s.perform call = (parseElement { s with journal } root).1 := by
  obtain ⟨source, hperform⟩ := exists_source_perform_eq (s := s) h
  exact ⟨_, hperform⟩

theorem schema_perform_of_root? (h : call.root? = none) (hcall : call ≠ .validate) :
    (s.perform call).schema = s.schema := by
  have hnamed {name text : String} (h : (Markup.parse text).toOption = none) :
      (s.parseNamed name text).1.schema = s.schema := by
    unfold parseNamed
    cases hparse : Markup.parse text with
    | error fault => rfl
    | ok root' =>
      rw [hparse] at h
      cases h
  cases call with
  | element root' => cases h
  | named name text => exact hnamed h
  | file path content =>
    cases content with
    | error fault => rfl
    | ok text => exact hnamed h
  | listen => rfl
  | validate => exact absurd rfl hcall

theorem schema_parseElement_of_receiver? (h : s.receiver? root = none) :
    (s.parseElement root).1.schema = s.schema := by
  unfold receiver? at h
  unfold parseElement
  split_ifs at h ⊢
  · rfl
  · cases hschema : s.schema with
    | some schema => simp [hschema] at h
    | none =>
      rw [hschema] at h
      dsimp only at h ⊢
      cases hread : (Schema.read root).result with
      | error err => exact hschema
      | ok schema => simp [hread, Except.toOption] at h

/-- A document that is received is added to the schema. -/
theorem parseElement_of_receiver? (h : s.receiver? root = some schema) :
    schema.catalogue = s.catalogue ∧
      ∃ t : Session, (s.parseElement root).1 = (t.addTo schema root).1 := by
  unfold receiver? at h
  unfold parseElement catalogue
  split_ifs at h ⊢
  cases hschema : s.schema with
  | some schema' =>
    rw [hschema] at h
    cases h
    exact ⟨rfl, s, rfl⟩
  | none =>
    rw [hschema] at h
    dsimp only at h ⊢
    cases hread : (Schema.read root).result with
    | error err => simp [hread, Except.toOption] at h
    | ok schema' =>
      rw [hread] at h
      cases h
      exact ⟨(Schema.read_eq_ok hread).2, _, rfl⟩

theorem built_of_receiver? (hs : s.Reachable) (h : s.receiver? root = some schema) :
    schema.Built := by
  unfold receiver? at h
  split_ifs at h with hvalidated
  have hnone : s.validated = none := by simpa using hvalidated
  cases hschema : s.schema with
  | some schema' =>
    rw [hschema] at h
    cases h
    exact hs.built hnone schema hschema
  | none =>
    rw [hschema] at h
    cases hread : (Schema.read root).result with
    | error err => simp [hread, Except.toOption] at h
    | ok schema' =>
      simp only [hread, Except.toOption, Option.some.injEq] at h
      exact .read (h ▸ hread)

/-- The schema that takes the document of a call, and the document. -/
def taken? (s : Session) (call : Call) : Option (Schema × Element) :=
  call.root?.bind fun root => (s.receiver? root).map fun schema => (schema, root)

theorem validated_of_receiver? (h : s.receiver? root = some schema) : s.validated = none := by
  unfold receiver? at h
  split_ifs at h with hvalidated
  exact Option.not_isSome_iff_eq_none.mp hvalidated

theorem taken?_eq_some_iff : s.taken? call = some (schema, root) ↔
    call.root? = some root ∧ s.receiver? root = some schema := by
  unfold taken?
  rw [Option.bind_eq_some_iff]
  constructor
  · rintro ⟨root', hroot, hp⟩
    obtain ⟨schema', hreceiver, heq⟩ := Option.map_eq_some_iff.mp hp
    cases heq
    exact ⟨hroot, hreceiver⟩
  · rintro ⟨hroot, hreceiver⟩
    exact ⟨root, hroot, Option.map_eq_some_iff.mpr ⟨schema, hreceiver, rfl⟩⟩

/-- A document that is received leaves what is found in it. -/
theorem journal_parseElement_of_receiver? (h : s.receiver? root = some schema) :
    (s.parseElement root).1.journal =
      s.journal.addAll (s.readFindings root ++ (schema.addDocument root).findings) := by
  unfold receiver? at h
  unfold parseElement readFindings
  split_ifs at h with hvalidated
  rw [if_neg hvalidated, (Bool.not_eq_true _).mp hvalidated, Bool.false_or]
  cases hschema : s.schema with
  | some schema' =>
    rw [hschema] at h
    cases h
    rfl
  | none =>
    rw [hschema] at h
    dsimp only at h ⊢
    cases hread : (Schema.read root).result with
    | error err => simp [hread, Except.toOption] at h
    | ok schema' =>
      rw [hread] at h
      cases h
      exact (s.journal.addAll_append _ _).symm

/-- **What a call reports** is what is found in its document, under the source of the call. -/
theorem reported_perform (h : s.taken? call = some (schema, root)) :
    ∃ source, reported s (s.perform call) =
      (s.readFindings root ++ (schema.addDocument root).findings).map
        (s.journal.withSource source).entry := by
  obtain ⟨hroot, hreceiver⟩ := taken?_eq_some_iff.mp h
  obtain ⟨source, hperform⟩ := exists_source_perform_eq (s := s) hroot
  have hjournal := journal_parseElement_of_receiver?
    (s := { s with journal := s.journal.withSource source }) hreceiver
  refine ⟨source, ?_⟩
  rw [hperform]
  exact reported_eq (s := { s with journal := s.journal.withSource source }) hjournal

/-- The turns of the field declarations of a call. -/
def attempts (s : Session) (call : Call) : List Attempt :=
  (s.taken? call).elim [] fun p => p.1.attempts p.2

/-- **The turns of a call lead from the catalogue before it to the one after it**, and those that
fail are reported. -/
theorem chain_perform (hcall : call ≠ .validate) :
    Chain s.catalogue (s.attempts call) (s.perform call).catalogue ∧
      ∀ x ∈ s.attempts call, ∀ err, x.outcome = .error (.error err) →
        (s.perform call).Reports x.element.line err := by
  have hnothing (h : (s.perform call).schema = s.schema) :
      Chain s.catalogue [] (s.perform call).catalogue ∧
        ∀ x ∈ ([] : List Attempt), ∀ err, x.outcome = .error (.error err) →
          (s.perform call).Reports x.element.line err := by
    rw [catalogue, catalogue, h]
    exact ⟨.nil _, fun x hx => absurd hx List.not_mem_nil⟩
  unfold attempts taken?
  cases hroot : call.root? with
  | none => exact hnothing (schema_perform_of_root? hroot hcall)
  | some root =>
    obtain ⟨journal, hperform⟩ := exists_perform_eq (s := s) hroot
    rw [Option.bind_some]
    cases hreceiver : s.receiver? root with
    | none =>
      have hsame : ({ s with journal } : Session).receiver? root = none := hreceiver
      exact hnothing (hperform ▸ schema_parseElement_of_receiver? hsame)
    | some schema =>
      have hsame : ({ s with journal } : Session).receiver? root = some schema := hreceiver
      obtain ⟨hcatalogue, t, ht⟩ := parseElement_of_receiver? hsame
      obtain ⟨hchain, hreported⟩ := schema.chain_attempts root
      rw [hperform, ht]
      rw [hcatalogue] at hchain
      exact ⟨hchain, fun x hx err herr => reports_addTo (hreported x hx err herr)⟩

/-! ### Runs -/

/-- The turns of the field declarations of all calls. -/
def trace (s : Session) : List Call → List Attempt
  | [] => []
  | call :: calls => s.attempts call ++ (s.perform call).trace calls

/-- The documents of the calls that are taken and name the schema. -/
def documents (s : Session) : List Call → List Element
  | [] => []
  | call :: calls =>
    ((s.taken? call).toList.filter fun p => p.1.isNamedBy p.2).map (·.2) ++
      (s.perform call).documents calls

/-- **The turns of a run are those of its documents**, one document after the other. -/
theorem map_declaration_trace (hs : s.Reachable) (calls : List Call) :
    (s.trace calls).map Attempt.declaration =
      (s.documents calls).flatMap (fieldDeclarations "") := by
  induction calls generalizing s with
  | nil => rfl
  | cons call calls ih =>
    have hcall : (s.attempts call).map Attempt.declaration =
        (((s.taken? call).toList.filter fun p => p.1.isNamedBy p.2).map (·.2)).flatMap
          (fieldDeclarations "") := by
      unfold attempts
      cases htaken : s.taken? call with
      | none => rfl
      | some p =>
        obtain ⟨schema, root⟩ := p
        obtain ⟨-, hreceiver⟩ := taken?_eq_some_iff.mp htaken
        rw [Option.elim_some,
          Schema.map_declaration_attempts (built_of_receiver? hs hreceiver).indexed]
        cases hnamed : schema.isNamedBy root <;> simp [hnamed]
    rw [trace, documents, List.map_append, List.flatMap_append, hcall, ih (hs.perform call)]

theorem trace_of_validated (h : s.validated.isSome = true) (calls : List Call) :
    s.trace calls = [] ∧ (s.run calls).schema = s.schema := by
  induction calls generalizing s with
  | nil => exact ⟨rfl, rfl⟩
  | cons call calls ih =>
    have hnext : (s.perform call).validated.isSome = true := by
      by_cases hcall : call = .validate
      · rw [hcall]
        exact Option.isSome_iff_exists.mpr ⟨_, validated_validate s⟩
      · rw [validated_perform hcall, h]
    have hnone : s.attempts call = [] := by
      unfold attempts taken? receiver?
      cases call.root? with
      | none => rfl
      | some root =>
        rw [Option.bind_some, if_pos h]
        rfl
    obtain ⟨htrace, hschema⟩ := ih hnext
    rw [trace, hnone, htrace]
    exact ⟨rfl, hschema.trans (schema_perform_of_validated h call)⟩

/-- The paths of the fields in the arena, in its order. -/
def paths (s : Session) : List String := s.catalogue.arena.fields.toList.map Field.externalRef

theorem paths_validate (s : Session) : s.validate.1.paths = s.paths := by
  unfold validate
  cases s.validated with
  | some result => rfl
  | none =>
    rcases s.schema_runValidation with hsame | ⟨built, hbuilt, hlink⟩
    · unfold paths catalogue
      dsimp only
      rw [hsame]
    · unfold paths catalogue
      dsimp only
      rw [hlink, hbuilt]
      refine List.ext_getElem? fun i => ?_
      rw [List.getElem?_map, List.getElem?_map, Array.getElem?_toList, Array.getElem?_toList]
      exact built.externalRef_link i

/-- **The turns of a run are a chain**, from the catalogue at the start to one that has the paths of
the schema at the end, and those that fail are reported. -/
theorem chain_trace (h : s.validated = none) (calls : List Call) :
    (∃ c, Chain s.catalogue (s.trace calls) c ∧
      c.arena.fields.toList.map Field.externalRef = (s.run calls).paths) ∧
      ∀ x ∈ s.trace calls, ∀ err, x.outcome = .error (.error err) →
        (s.run calls).Reports x.element.line err := by
  induction calls generalizing s with
  | nil => exact ⟨⟨_, .nil _, rfl⟩, fun x hx => absurd hx List.not_mem_nil⟩
  | cons call calls ih =>
    by_cases hcall : call = .validate
    · -- no document is taken after the check
      subst hcall
      have hvalidated : (s.perform .validate).validated.isSome = true :=
        Option.isSome_iff_exists.mpr ⟨_, validated_validate s⟩
      obtain ⟨htrace, hschema⟩ := trace_of_validated hvalidated calls
      have hpaths : (s.run (.validate :: calls)).paths = s.paths := by
        rw [← paths_validate s, paths, paths, catalogue, catalogue]
        exact congrArg (fun schema : Option Schema =>
          ((schema.map Schema.catalogue).getD ⟨.empty, []⟩).arena.fields.toList.map
            Field.externalRef) hschema
      have hnone : s.trace (.validate :: calls) = [] := htrace
      rw [hnone, hpaths]
      exact ⟨⟨_, .nil _, rfl⟩, fun x hx => absurd hx List.not_mem_nil⟩
    · obtain ⟨hchain, hreported⟩ := chain_perform (s := s) hcall
      obtain ⟨⟨c, hrest, hpaths⟩, hlater⟩ := ih ((validated_perform hcall).trans h)
      refine ⟨⟨c, hchain.append hrest, hpaths⟩, fun x hx err herr => ?_⟩
      rcases List.mem_append.mp hx with hx | hx
      · exact (hreported x hx err herr).keeps (keeps_run _ _)
      · exact hlater x hx err herr

theorem isFieldTag_of_mem_trace {x : Attempt} (hs : s.Reachable)
    (hx : x ∈ s.trace calls) : isFieldTag x.element.tag = true := by
  have hmem := List.mem_map_of_mem (f := Attempt.declaration) hx
  rw [map_declaration_trace hs, List.mem_flatMap] at hmem
  obtain ⟨e, -, hmem⟩ := hmem
  exact isFieldTag_of_mem_fieldDeclarations hmem

/-- **What is reused is found among the fields of earlier turns.** In every run, a declaration with
`reuse` misses the field if and only if no declaration that had its turn before was accepted with
this path, taken from the namespace or from the root; and if it does, this is reported. The turns
are those of all field declarations of the documents that are taken, one document after the other,
and in each element nested namespaces first; the fields that are accepted are those of the schema.
-/
theorem reuse_finds_earlier_turns (config : Config) (calls : List Call)
    (before later : List Attempt) (x : Attempt) (path : String)
    (h : (start config).trace calls = before ++ x :: later)
    (hreuse : (x.element.props ["reuse"]).single "reuse" = .ok (some path)) :
    (x.Misses path ↔ ¬ ∃ y ∈ before, ∃ f, y.field? = some f ∧
      (f.externalRef = qualify x.declaration.1 path ∨ f.externalRef = path)) ∧
    (x.Misses path → (after config calls).Reports x.element.line
      (.invalid ((x.element.attr "name").getD x.element.tag) (.unknownBase path))) ∧
    ((start config).trace calls).map Attempt.declaration =
      ((start config).documents calls).flatMap (fieldDeclarations "") ∧
    (((start config).documents calls).flatMap (fieldDeclarations "")).Perm
      (((start config).documents calls).flatMap (documentOrder "")) ∧
    ∀ schema, (after config calls).schema = some schema →
      schema.arena.fields.toList.map Field.externalRef =
        (((start config).trace calls).filterMap Attempt.field?).map Field.externalRef := by
  have hmem : x ∈ (start config).trace calls := h ▸ List.mem_append_right _ List.mem_cons_self
  obtain ⟨⟨c, hchain, hpaths⟩, hreported⟩ := chain_trace (s := start config) rfl calls
  have hbefore : Chain ⟨.empty, []⟩ before x.population.catalogue := (h ▸ hchain).before
  have htag := isFieldTag_of_mem_trace (reachable_start config) hmem
  refine ⟨?_, fun hmisses => hreported x hmem _ hmisses.outcome,
    map_declaration_trace (reachable_start config) calls,
    List.Perm.flatMap_left _ fun e _ => fieldDeclarations_perm "" e, fun schema hschema => ?_⟩
  · rw [Attempt.misses_iff htag hreuse, hbefore.base?_eq_none_iff]
    rfl
  · have hschemaPaths : (after config calls).paths =
        schema.arena.fields.toList.map Field.externalRef := by
      rw [paths, catalogue, hschema]
      rfl
    rw [← hschemaPaths, after, ← hpaths, hchain.arena]
    rfl

/-! ### Two documents -/

/-- The run of a first document that names its schema has the turns of this document. -/
theorem map_declaration_trace_element {config : Config}
    (h : ((start config).receiver? root).any (·.isNamedBy root) = true) :
    (start config).documents [.element root] = [root] ∧
      ((start config).trace [.element root]).map Attempt.declaration =
        fieldDeclarations "" root := by
  have hdocuments : (start config).documents [.element root] = [root] := by
    rw [Option.any_eq_true] at h
    obtain ⟨schema, hschema, hnamed⟩ := h
    simp [documents, taken?, Call.root?, hschema, hnamed]
  refine ⟨hdocuments, ?_⟩
  rw [map_declaration_trace (reachable_start config), hdocuments, List.flatMap_singleton]

/-- A document with a field in a namespace, which the root reuses before the namespace. -/
def lateBaseDocument : Element :=
  ⟨"schema", [("name", "P")],
    [⟨"int", [("name", "B"), ("reuse", "N.A")], [], "", 2⟩,
      ⟨"ns", [("name", "N")], [⟨"int", [("name", "A"), ("type", "uint8")], [], "", 4⟩], "", 3⟩],
    "", 1⟩

/-- The field of the namespace has its turn first, so that the one before it finds it. -/
theorem reuse_of_lateBaseDocument :
    ∃ y x, (start ⟨none, 0, none, false⟩).trace [.element lateBaseDocument] = [y] ++ x :: [] ∧
      (x.element.props ["reuse"]).single "reuse" = .ok (some "N.A") ∧ ¬ x.Misses "N.A" ∧
      documentOrder "" lateBaseDocument = [x.declaration, y.declaration] := by
  obtain ⟨-, hturns⟩ := map_declaration_trace_element
    (show ((start ⟨none, 0, none, false⟩).receiver? lateBaseDocument).any
      (·.isNamedBy lateBaseDocument) = true by decide +kernel)
  have hpaths : ((start ⟨none, 0, none, false⟩).trace [.element lateBaseDocument]).map
      (fun y => y.field?.map Field.externalRef) = [some "N.A", some "B"] := by decide +kernel
  obtain ⟨y, xs, htrace, hy, hxs⟩ := List.map_eq_cons_iff.mp hturns
  obtain ⟨x, zs, rfl, hx, hzs⟩ := List.map_eq_cons_iff.mp hxs
  obtain rfl := List.map_eq_nil_iff.mp hzs
  rw [htrace] at hpaths
  obtain ⟨f, hf, hpath⟩ := Option.map_eq_some_iff.mp (List.cons.inj hpaths).1
  have hreuse : (x.element.props ["reuse"]).single "reuse" = .ok (some "N.A") := by
    rw [show x.element = _ from congrArg Prod.snd hx]
    rfl
  obtain ⟨hmisses, -⟩ := reuse_finds_earlier_turns ⟨none, 0, none, false⟩
    [.element lateBaseDocument] [y] [] x "N.A" htrace hreuse
  refine ⟨y, x, htrace, hreuse, fun hmiss => ?_, ?_⟩
  · exact hmisses.mp hmiss ⟨y, List.mem_singleton_self y, f, hf, Or.inr hpath⟩
  · rw [hx, hy]
    rfl

/-- A document with a field of the root, which a namespace after it reuses. -/
def earlyBaseDocument : Element :=
  ⟨"schema", [("name", "P")],
    [⟨"int", [("name", "A"), ("type", "uint8")], [], "", 2⟩,
      ⟨"ns", [("name", "N")], [⟨"int", [("name", "B"), ("reuse", "A")], [], "", 4⟩], "", 3⟩],
    "", 1⟩

/-- What is reused is not always found when it is earlier in the document: the namespace has its
turn before the field of the root. -/
theorem reuse_of_earlyBaseDocument :
    ¬ ∀ x ∈ (start ⟨none, 0, none, false⟩).trace [.element earlyBaseDocument], ∀ path,
      (x.element.props ["reuse"]).single "reuse" = .ok (some path) →
      (¬ x.Misses path ↔
        ∃ y ∈ (start ⟨none, 0, none, false⟩).trace [.element earlyBaseDocument],
          (∃ f, y.field? = some f ∧
            (f.externalRef = qualify x.declaration.1 path ∨ f.externalRef = path)) ∧
          [y.declaration, x.declaration].Sublist
            (((start ⟨none, 0, none, false⟩).documents [.element earlyBaseDocument]).flatMap
              (documentOrder ""))) := by
  obtain ⟨hdocuments, hturns⟩ := map_declaration_trace_element
    (show ((start ⟨none, 0, none, false⟩).receiver? earlyBaseDocument).any
      (·.isNamedBy earlyBaseDocument) = true by decide +kernel)
  have heval : ((start ⟨none, 0, none, false⟩).trace [.element earlyBaseDocument]).map
      (fun y => (y.field?.map Field.externalRef, (y.context.base? "A").isNone)) =
        [(none, true), (some "A", true)] := by decide +kernel
  obtain ⟨x, ys, htrace, hx, hys⟩ := List.map_eq_cons_iff.mp hturns
  obtain ⟨y, zs, rfl, hy, hzs⟩ := List.map_eq_cons_iff.mp hys
  obtain rfl := List.map_eq_nil_iff.mp hzs
  rw [htrace, hdocuments]
  rw [htrace, List.map_cons, List.map_cons, List.cons.injEq, List.cons.injEq, Prod.mk.injEq,
    Prod.mk.injEq] at heval
  obtain ⟨⟨-, hbase⟩, ⟨hy', -⟩, -⟩ := heval
  obtain ⟨f, hf, hpath⟩ := Option.map_eq_some_iff.mp hy'
  have helement : x.element = ⟨"int", [("name", "B"), ("reuse", "A")], [], "", 4⟩ :=
    (congrArg Prod.snd hx)
  have hreuse : (x.element.props ["reuse"]).single "reuse" = .ok (some "A") := by
    rw [helement]
    rfl
  have hmisses : x.Misses "A" := by
    refine (Attempt.misses_iff ?_ hreuse).mpr (Option.isNone_iff_eq_none.mp hbase)
    rw [helement]
    rfl
  intro hclaim
  refine (hclaim x List.mem_cons_self "A" hreuse).mpr
    ⟨y, List.mem_cons_of_mem _ (List.mem_singleton_self y), ⟨f, hf, Or.inr hpath⟩, ?_⟩ hmisses
  rw [List.flatMap_singleton, hx, hy]
  exact List.Sublist.refl _

end Session

end WireSchema
