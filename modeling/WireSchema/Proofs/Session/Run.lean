import WireSchema.Proofs.Finding.Journal
import WireSchema.Proofs.Schema.Built
import WireSchema.Session

/-! # Runs of a session

A run is any order of the calls that change a session. Until the check, its schema is one that
documents build; after a check that succeeded, it is such a schema linked without an error, and
passes the check (`reachable_after`). -/

namespace WireSchema

/-- Documents built the schema, it was linked without an error, and it passes the check. -/
def Schema.Checked (s : Schema) : Prop := ∃ built : Schema, built.Built ∧ s = built.link.1 ∧
  (∀ x ∈ built.link.2, x.isError = false) ∧ ∃ dependent, (s.check dependent).result = .ok true

namespace Session

open Markup

/-- A call that changes a session. -/
inductive Call
  | listen
  | element (root : Element)
  | named (name text : String)
  | file (path : String) (content : Except FileFault String)
  | validate

/-- The session after a call. -/
def perform (s : Session) : Call → Session
  | .listen => s.listen
  | .element root => (s.parseElement root).1
  | .named name text => (s.parseNamed name text).1
  | .file path content => (s.parseFile path content).1
  | .validate => s.validate.1

/-- The session after the calls. -/
def run (s : Session) (calls : List Call) : Session := calls.foldl perform s

/-- The session after the calls, from the start. -/
def after (config : Config) (calls : List Call) : Session := (start config).run calls

/-- What the schema of a session is before and after the check. -/
structure Reachable (s : Session) : Prop where
  warnAsError : s.journal.warnAsError = s.config.warnAsError
  built : s.validated = none → ∀ schema, s.schema = some schema → schema.Built
  checked : s.validated = some true → ∃ schema : Schema, s.schema = some schema ∧ schema.Checked

variable {s : Session} {schema : Schema}

/-! ### One call -/

theorem Reachable.congr {s' : Session} (h : s.Reachable) (hconfig : s'.config = s.config)
    (hjournal : s'.journal.warnAsError = s.journal.warnAsError) (hschema : s'.schema = s.schema)
    (hvalidated : s'.validated = s.validated) : s'.Reachable := by
  refine ⟨?_, ?_, ?_⟩
  · rw [hjournal, hconfig]
    exact h.warnAsError
  · rw [hvalidated, hschema]
    exact h.built
  · rw [hvalidated, hschema]
    exact h.checked

theorem Reachable.add (h : s.Reachable) (fs : List Finding) : (s.add fs).Reachable :=
  h.congr rfl (s.journal.warnAsError_addAll fs) rfl rfl

theorem Reachable.refuse (h : s.Reachable) (line : Nat) (failure : Failure) :
    (s.refuse line failure).1.Reachable :=
  h.add _

theorem Reachable.withSource (h : s.Reachable) (source : String) :
    ({ s with journal := s.journal.withSource source } : Session).Reachable :=
  h.congr rfl rfl rfl rfl

theorem Reachable.addTo (h : s.Reachable) (hs : s.validated = none) (hbuilt : schema.Built)
    (root : Element) : (s.addTo schema root).1.Reachable := by
  have hstep :
      ({ s with schema := some (schema.addDocument root).schema } : Session).Reachable := by
    refine ⟨h.warnAsError, fun _ schema' h => ?_, fun h => ?_⟩
    · rw [Option.some.injEq] at h
      rw [← h]
      exact hbuilt.add root
    · simp [hs] at h
  exact hstep.add _

theorem Reachable.parseElement (h : s.Reachable) (root : Element) :
    (s.parseElement root).1.Reachable := by
  unfold Session.parseElement
  split_ifs with hvalidated
  · exact h.refuse _ _
  · have hnone : s.validated = none := by simpa using hvalidated
    cases hschema : s.schema with
    | some schema =>
      exact h.addTo hnone (h.built hnone schema hschema) root
    | none =>
      have hadd := h.add (Schema.read root).findings
      dsimp only
      cases hread : (Schema.read root).result with
      | error e => exact hadd.refuse _ _
      | ok schema => exact hadd.addTo hnone (.read hread) root

theorem Reachable.parseNamed (h : s.Reachable) (name text : String) :
    (s.parseNamed name text).1.Reachable := by
  unfold Session.parseNamed
  dsimp only
  cases Markup.parse text with
  | error fault => exact (h.withSource name).refuse _ _
  | ok root => exact (h.withSource name).parseElement root

theorem Reachable.parseFile (h : s.Reachable) (path : String) (content : Except FileFault String) :
    (s.parseFile path content).1.Reachable := by
  unfold Session.parseFile
  cases content with
  | error fault => exact (h.withSource path).refuse _ _
  | ok text => exact h.parseNamed path text

/-! ### The check -/

theorem config_linkAndCheck (s : Session) (schema : Schema) :
    (s.linkAndCheck schema).1.config = s.config := by
  unfold linkAndCheck
  dsimp only
  split <;> rfl

theorem warnAsError_linkAndCheck (s : Session) (schema : Schema) :
    (s.linkAndCheck schema).1.journal.warnAsError = s.journal.warnAsError := by
  unfold linkAndCheck
  dsimp only
  split
  · simp only [add, Journal.warnAsError_addAll]
  · simp only [refuse, add, Journal.warnAsError_addAll]

theorem schema_linkAndCheck (s : Session) (schema : Schema) :
    (s.linkAndCheck schema).1.schema = some schema.link.1 := by
  unfold linkAndCheck
  dsimp only
  split <;> rfl

theorem isError_of_linkAndCheck (h : (s.linkAndCheck schema).2 = true) :
    ∀ x ∈ schema.link.2, x.isError = false := by
  unfold linkAndCheck at h
  dsimp only at h
  split at h
  · rw [Bool.and_eq_true, Bool.not_eq_true'] at h
    obtain ⟨hlink, -⟩ := Journal.hasErrors_addAll_eq_false_iff.mp h.2
    obtain ⟨-, hlink⟩ := Journal.hasErrors_addAll_eq_false_iff.mp hlink
    intro x hx
    have hsev := hlink x hx
    rw [ne_eq, Journal.severity_entry_eq_error_iff, not_or] at hsev
    simpa using hsev.1
  · simp [refuse] at h

theorem Reachable.runValidation (h : s.Reachable) :
    s.runValidation.1.journal.warnAsError = s.runValidation.1.config.warnAsError := by
  have hlink (schema : Schema) : (s.linkAndCheck schema).1.journal.warnAsError =
      (s.linkAndCheck schema).1.config.warnAsError := by
    rw [warnAsError_linkAndCheck, config_linkAndCheck]
    exact h.warnAsError
  unfold Session.runValidation
  split
  · exact (h.refuse _ _).warnAsError
  · split
    · exact hlink _
    · split_ifs
      · exact (h.refuse _ _).warnAsError
      · exact hlink _

theorem check_of_linkAndCheck (h : (s.linkAndCheck schema).2 = true) :
    (schema.link.1.check
      (s.config.versionDependentCode.getD schema.link.1.hasVersionField)).result = .ok true := by
  unfold linkAndCheck at h
  dsimp only at h
  split at h
  · rename_i ok hok
    rw [((Bool.and_eq_true _ _).mp h).1] at hok
    exact hok
  · simp [refuse] at h

/-- A check that succeeds has linked and checked a schema. -/
theorem runValidation_eq (h : s.runValidation.2 = true) :
    ∃ schema, s.schema = some schema ∧ s.runValidation = s.linkAndCheck schema := by
  unfold runValidation at h ⊢
  cases hschema : s.schema with
  | none => simp [hschema, refuse] at h
  | some schema =>
    simp only [hschema] at h ⊢
    refine ⟨schema, rfl, ?_⟩
    cases hforced : s.config.forcedVersion with
    | none => rfl
    | some forced =>
      simp only [hforced] at h ⊢
      split_ifs at h ⊢ with hlt
      · simp [refuse] at h
      · rfl

/-- A check that succeeds leaves a schema that passes it, linked without an error. -/
theorem checked_of_runValidation (h : s.runValidation.2 = true) :
    ∃ schema, s.schema = some schema ∧ s.runValidation.1.schema = some schema.link.1 ∧
      (∀ x ∈ schema.link.2, x.isError = false) ∧
      ∃ dependent, (schema.link.1.check dependent).result = .ok true := by
  obtain ⟨schema, hschema, heq⟩ := runValidation_eq h
  rw [heq] at h ⊢
  exact ⟨schema, hschema, schema_linkAndCheck s schema, isError_of_linkAndCheck h, _,
    check_of_linkAndCheck h⟩

/-- **A first check that succeeds** has linked the schema that documents built, and the linked
schema passes. -/
theorem checked_of_validate (hnone : s.validated = none) (h : s.validate.2 = true) :
    ∃ schema, s.schema = some schema ∧ s.validate.1.schema = some schema.link.1 ∧
      ∃ dependent, (schema.link.1.check dependent).result = .ok true := by
  unfold validate at h ⊢
  rw [hnone] at h ⊢
  obtain ⟨schema, hschema, hlink, -, hcheck⟩ := checked_of_runValidation h
  exact ⟨schema, hschema, hlink, hcheck⟩

theorem Reachable.validate (h : s.Reachable) : s.validate.1.Reachable := by
  unfold Session.validate
  cases hvalidated : s.validated with
  | some result => exact h
  | none =>
    refine ⟨h.runValidation, fun hnone => ?_, fun htrue => ?_⟩
    · simp at hnone
    · rw [Option.some.injEq] at htrue
      obtain ⟨schema, hschema, hlink, hclean, hcheck⟩ := checked_of_runValidation htrue
      exact ⟨schema.link.1, hlink, schema, h.built hvalidated schema hschema, rfl, hclean, hcheck⟩

/-! ### Runs -/

theorem Reachable.perform (h : s.Reachable) (call : Call) : (s.perform call).Reachable := by
  cases call with
  | listen => exact h.congr rfl rfl rfl rfl
  | element root => exact h.parseElement root
  | named name text => exact h.parseNamed name text
  | file path content => exact h.parseFile path content
  | validate => exact h.validate

theorem Reachable.run (h : s.Reachable) (calls : List Call) : (s.run calls).Reachable := by
  induction calls generalizing s with
  | nil => exact h
  | cons call calls ih => exact ih (h.perform call)

theorem reachable_start (config : Config) : (start config).Reachable := by
  refine ⟨rfl, fun _ schema h => ?_, fun h => ?_⟩
  · simp [start] at h
  · simp [start] at h

/-- **In every run, the schema is built from documents until the check, and linked after it.** -/
theorem reachable_after (config : Config) (calls : List Call) : (after config calls).Reachable :=
  (reachable_start config).run calls

theorem validated_validate (s : Session) : s.validate.1.validated = some s.validate.2 := by
  unfold validate
  cases hvalidated : s.validated with
  | some result => exact hvalidated
  | none => rfl

/-- **A check that succeeds, now or earlier, leaves a schema that passes it.** -/
theorem Reachable.exists_checked (h : s.Reachable) (hok : s.validate.2 = true) :
    ∃ schema : Schema, s.validate.1.schema = some schema ∧ schema.Checked :=
  h.validate.checked (by rw [validated_validate, hok])

/-- A session whose check succeeds has a schema linked from one that documents built: from its own
schema, if it was not checked before. -/
theorem Reachable.exists_built (h : s.Reachable) (hok : s.validate.2 = true) :
    ∃ schema : Schema, schema.Built ∧ schema.link.1.Checked ∧
      s.validate.1.schema = some schema.link.1 ∧
      (s.validated = none → s.schema = some schema) := by
  cases hvalidated : s.validated with
  | some result =>
    obtain ⟨_, hschema, built, hbuilt, rfl, hchecked⟩ := h.exists_checked hok
    exact ⟨built, hbuilt, ⟨built, hbuilt, rfl, hchecked⟩, hschema, nofun⟩
  | none =>
    unfold Session.validate at hok ⊢
    rw [hvalidated] at hok ⊢
    obtain ⟨schema, hschema, hlink, hchecked⟩ := checked_of_runValidation hok
    have hbuilt : schema.Built := h.built hvalidated schema hschema
    exact ⟨schema, hbuilt, ⟨schema, hbuilt, rfl, hchecked⟩, hlink, fun _ => hschema⟩

/-- A session whose check succeeds has a schema that documents built, linked without an error. -/
theorem Reachable.exists_linked (h : s.Reachable) (hok : s.validate.2 = true) :
    ∃ schema : Schema, schema.Built ∧ s.validate.1.schema = some schema.link.1 ∧
      ∀ x ∈ schema.link.2, x.isError = false := by
  obtain ⟨_, hschema, built, hbuilt, rfl, hclean, -⟩ := h.exists_checked hok
  exact ⟨built, hbuilt, hschema, hclean⟩

end Session

end WireSchema
