import WireSchema.Proofs.Session.Validation

/-! # Warnings as errors

Two runs of the same calls, of which one takes warnings as errors, go through the same schemas and
report the same diagnostics, but for the severity of warnings (`after_promoted`). Nothing but the
verdicts asks what was reported before, and no verdict on a document has an effect on the session.
The stricter check succeeds just when the other one does and no warning was reported at all
(`strict_run_promotes_warnings`). -/

namespace WireSchema

open Markup

/-! ### Journals -/

/-- The severity in a run that takes warnings as errors. -/
def Severity.promoted (s : Severity) : Severity := if s = .warning then .error else s

/-- The diagnostic in a run that takes warnings as errors. -/
def Diagnostic.promoted (d : Diagnostic) : Diagnostic := { d with severity := d.severity.promoted }

namespace Journal

/-- The journal of a run that takes warnings as errors. -/
def promoted (j : Journal) : Journal where
  source := j.source
  warnAsError := true
  diagnostics := j.diagnostics.map Diagnostic.promoted
  heard := j.heard.map fun texts => texts.map fun t => (t.1.promoted, t.2)

/-- No diagnostic is a warning. -/
def unwarned (j : Journal) : Bool := j.diagnostics.toList.all (·.severity != .warning)

variable {j : Journal}

theorem promote_promoted (j : Journal) (s : Severity) :
    j.promoted.promote s = (j.promote s).promoted := by
  unfold promote promoted Severity.promoted
  cases s <;> cases j.warnAsError <;> rfl

theorem promoted_add (j : Journal) (f : Finding) : (j.add f).promoted = j.promoted.add f := by
  let d : Diagnostic := ⟨j.promote (severityOf f), j.source, f.line, f.message⟩
  have hd : d.promoted = ⟨j.promoted.promote (severityOf f), j.source, f.line, f.message⟩ := by
    rw [promote_promoted]
    rfl
  have hdiagnostics : (j.add f).promoted.diagnostics = (j.promoted.add f).diagnostics := by
    show (j.diagnostics.push d).map Diagnostic.promoted = (j.diagnostics.map _).push _
    rw [Array.map_push, hd]
    rfl
  have hheard : (j.add f).promoted.heard = (j.promoted.add f).heard := by
    show ((j.heard.map (·.push (d.severity, d.text))).map _) = (j.heard.map _).map _
    cases j.heard with
    | none => rfl
    | some texts =>
      have hseverity : d.severity.promoted = j.promoted.promote (severityOf f) :=
        congrArg Diagnostic.severity hd
      simp only [Option.map_some, Array.map_push, hseverity]
      rfl
  exact congr (congrArg (Journal.mk j.source true) hdiagnostics) hheard

theorem promoted_addAll (j : Journal) (fs : List Finding) :
    (j.addAll fs).promoted = j.promoted.addAll fs := by
  induction fs generalizing j with
  | nil => rfl
  | cons f fs ih =>
    have hrest := ih (j.add f)
    rw [promoted_add] at hrest
    exact hrest

theorem unwarned_eq_true_iff :
    j.unwarned = true ↔ ∀ d ∈ j.diagnostics.toList, d.severity ≠ .warning := by
  unfold unwarned
  rw [List.all_eq_true]
  simp only [bne_iff_ne]

/-- What ends a pass is no warning. -/
theorem unwarned_add_failure (j : Journal) (line : Nat) (failure : Failure) :
    (j.addAll [⟨line, failure.cause⟩]).unwarned = j.unwarned := by
  have hentry : (j.entry ⟨line, failure.cause⟩).severity = .error :=
    severity_entry_eq_error_iff.mpr (Or.inl (failure.isError_cause line))
  unfold unwarned
  rw [toList_addAll, List.all_append, List.map_cons, List.map_nil, List.all_cons, hentry]
  simp

/-- **Errors are missing in the stricter journal just when errors and warnings are missing.** -/
theorem hasErrors_promoted_eq_false_iff :
    j.promoted.hasErrors = false ↔ j.hasErrors = false ∧ j.unwarned = true := by
  have hsplit (d : Diagnostic) :
      d.promoted.severity ≠ .error ↔ d.severity ≠ .error ∧ d.severity ≠ .warning := by
    unfold Diagnostic.promoted Severity.promoted
    cases d.severity <;> simp
  rw [hasErrors_eq_false_iff, hasErrors_eq_false_iff, unwarned_eq_true_iff]
  unfold promoted
  rw [Array.toList_map, List.forall_mem_map]
  constructor
  · intro h
    exact ⟨fun d hd => ((hsplit d).mp (h d hd)).1, fun d hd => ((hsplit d).mp (h d hd)).2⟩
  · rintro ⟨herrors, hwarnings⟩ d hd
    exact (hsplit d).mpr ⟨herrors d hd, hwarnings d hd⟩

end Journal

/-! ### Sessions -/

namespace Session

variable {s : Session} {schema : Schema}

/-- The session of a run that takes warnings as errors. A check that succeeded without it succeeds
if no warning was reported. -/
def promoted (s : Session) : Session where
  config := { s.config with warnAsError := true }
  journal := s.journal.promoted
  schema := s.schema
  validated := s.validated.map fun ok => ok && s.journal.unwarned

theorem promoted_add (h : s.validated = none) (fs : List Finding) :
    (s.add fs).promoted = s.promoted.add fs := by
  unfold promoted add
  rw [Journal.promoted_addAll, h]
  rfl

theorem promoted_refuse (s : Session) (line : Nat) (failure : Failure) :
    (s.refuse line failure).1.promoted = (s.promoted.refuse line failure).1 := by
  unfold promoted refuse add
  dsimp only
  rw [Journal.promoted_addAll, Journal.unwarned_add_failure]

theorem promoted_addTo (h : s.validated = none) (schema : Schema) (root : Element) :
    (s.addTo schema root).1.promoted = (s.promoted.addTo schema root).1 := by
  have hstep : ({ s with schema := some (schema.addDocument root).schema } : Session).validated =
      none := h
  exact promoted_add hstep _

/-- **A document changes both sessions alike.** -/
theorem promoted_parseElement (s : Session) (root : Element) :
    (s.parseElement root).1.promoted = (s.promoted.parseElement root).1 := by
  cases hvalidated : s.validated with
  | some result =>
    have hpromoted : s.promoted.validated.isSome = true := by simp [promoted, hvalidated]
    unfold parseElement
    rw [if_pos (by rw [hvalidated]; rfl), if_pos hpromoted]
    exact promoted_refuse s _ _
  | none =>
    have hpromoted : s.promoted.validated = none := by simp [promoted, hvalidated]
    have hschema : s.promoted.schema = s.schema := rfl
    unfold parseElement
    rw [hvalidated, hpromoted, hschema]
    cases s.schema with
    | some schema => exact promoted_addTo hvalidated schema root
    | none =>
      have hadd := promoted_add hvalidated (Schema.read root).findings
      have hadded : (s.add (Schema.read root).findings).validated = none := hvalidated
      dsimp only
      rw [← hadd]
      cases (Schema.read root).result with
      | error e => exact promoted_refuse _ _ _
      | ok schema => exact promoted_addTo hadded schema root

theorem promoted_parseNamed (s : Session) (name text : String) :
    (s.parseNamed name text).1.promoted = (s.promoted.parseNamed name text).1 := by
  unfold parseNamed
  dsimp only
  cases Markup.parse text with
  | error fault => exact promoted_refuse { s with journal := s.journal.withSource name } _ _
  | ok root => exact promoted_parseElement { s with journal := s.journal.withSource name } root

/-! ### The check -/

theorem promoted_linkAndCheck (h : s.validated = none) (schema : Schema) :
    (s.linkAndCheck schema).1.promoted = (s.promoted.linkAndCheck schema).1 := by
  have hlink : ({ s with schema := some schema.link.1 } : Session).validated = none := h
  have hadd := promoted_add hlink schema.link.2
  have hcheck := promoted_add
    (s := { s with schema := some schema.link.1 }.add schema.link.2) h
    (schema.link.1.check
      (s.config.versionDependentCode.getD schema.link.1.hasVersionField)).findings
  rw [hadd] at hcheck
  have hconfig : s.promoted.config.versionDependentCode = s.config.versionDependentCode := rfl
  unfold linkAndCheck
  dsimp only [add]
  rw [hconfig]
  cases (schema.link.1.check
      (s.config.versionDependentCode.getD schema.link.1.hasVersionField)).result with
  | ok ok => exact hcheck
  | error e =>
    refine (promoted_refuse _ _ _).trans ?_
    exact congrArg (fun t : Session => (t.refuse 0 e).1) hcheck

theorem promoted_runValidation (h : s.validated = none) :
    s.runValidation.1.promoted = s.promoted.runValidation.1 := by
  have hschema : s.promoted.schema = s.schema := rfl
  have hforced : s.promoted.config.forcedVersion = s.config.forcedVersion := rfl
  unfold runValidation
  rw [hschema, hforced]
  cases s.schema with
  | none => exact promoted_refuse s _ _
  | some schema =>
    cases s.config.forcedVersion with
    | none => exact promoted_linkAndCheck h schema
    | some forced =>
      dsimp only
      split_ifs
      · exact promoted_refuse s _ _
      · exact promoted_linkAndCheck h schema

/-- **The stricter check succeeds just when the other one does and nothing was a warning.** -/
theorem verdict_promoted_runValidation (h : s.validated = none) :
    s.promoted.runValidation.2 = (s.runValidation.2 && s.runValidation.1.journal.unwarned) := by
  have hjournal : s.promoted.runValidation.1.journal = s.runValidation.1.journal.promoted :=
    congrArg Session.journal (promoted_runValidation h).symm
  rw [Bool.eq_iff_iff, Bool.and_eq_true, hasErrors_runValidation_iff, hasErrors_runValidation_iff,
    hjournal]
  exact Journal.hasErrors_promoted_eq_false_iff

theorem promoted_validate (s : Session) : s.validate.1.promoted = s.promoted.validate.1 := by
  cases hvalidated : s.validated with
  | some result =>
    have hpromoted : s.promoted.validated = some (result && s.journal.unwarned) := by
      simp [promoted, hvalidated]
    unfold validate
    rw [hvalidated, hpromoted]
  | none =>
    have hpromoted : s.promoted.validated = none := by simp [promoted, hvalidated]
    have hrun := promoted_runValidation hvalidated
    unfold validate
    rw [hvalidated, hpromoted]
    dsimp only
    rw [← hrun, verdict_promoted_runValidation hvalidated]
    rfl

/-! ### Runs -/

theorem promoted_perform (s : Session) (call : Call) :
    (s.perform call).promoted = s.promoted.perform call := by
  cases call with
  | listen =>
    have hheard : (s.journal.listen).promoted = s.journal.promoted.listen := by
      simp [Journal.listen, Journal.promoted]
    exact congrArg (fun j => { s.promoted with journal := j }) hheard
  | element root => exact promoted_parseElement s root
  | named name text => exact promoted_parseNamed s name text
  | file path content =>
    cases content with
    | error fault => exact promoted_refuse { s with journal := s.journal.withSource path } _ _
    | ok text => exact promoted_parseNamed s path text
  | validate => exact promoted_validate s

theorem promoted_start (config : Config) :
    (start config).promoted = start { config with warnAsError := true } := by
  simp [start, promoted, Journal.empty, Journal.promoted]

theorem promoted_run (s : Session) (calls : List Call) :
    (s.run calls).promoted = s.promoted.run calls := by
  induction calls generalizing s with
  | nil => rfl
  | cons call calls ih =>
    have hrest := ih (s.perform call)
    rw [promoted_perform] at hrest
    exact hrest

/-- **The stricter run is the other one with its warnings as errors.** -/
theorem after_promoted (config : Config) (calls : List Call) :
    after { config with warnAsError := true } calls = (after config calls).promoted := by
  unfold after
  rw [promoted_run, promoted_start]

/-- **Two runs of the same calls.** One takes warnings as errors and the other one does not, and
both end with the check. They have the same schema, before the check and after it. They report the
same diagnostics in the same order, and the same to a listener, but each warning is an error in the
stricter run. The stricter check succeeds if and only if the other one does and no warning was
reported in the whole run. -/
theorem strict_run_promotes_warnings (config : Config) (calls : List Call) :
    let lenient := after { config with warnAsError := false } calls
    let strict := after { config with warnAsError := true } calls
    strict.schema = lenient.schema ∧
    strict.validate.1.schema = lenient.validate.1.schema ∧
    strict.validate.1.journal.diagnostics =
      lenient.validate.1.journal.diagnostics.map Diagnostic.promoted ∧
    strict.validate.1.journal.heard =
      lenient.validate.1.journal.heard.map (·.map fun t => (t.1.promoted, t.2)) ∧
    (strict.validate.2 = true ↔ lenient.validate.2 = true ∧
      ∀ d ∈ lenient.validate.1.journal.diagnostics.toList, d.severity ≠ .warning) := by
  intro lenient strict
  have hstrict : strict = lenient.promoted :=
    after_promoted { config with warnAsError := false } calls
  have hvalidate : strict.validate.1 = lenient.validate.1.promoted := by
    rw [hstrict, promoted_validate]
  have hverdict : strict.validate.2 =
      (lenient.validate.2 && lenient.validate.1.journal.unwarned) := by
    have hvalidated := validated_validate strict
    rw [hvalidate] at hvalidated
    have hlenient : lenient.validate.1.promoted.validated =
        some (lenient.validate.2 && lenient.validate.1.journal.unwarned) := by
      unfold promoted
      rw [validated_validate]
      rfl
    exact Option.some.inj (hvalidated.symm.trans hlenient)
  refine ⟨?_, ?_, ?_, ?_, ?_⟩
  · rw [hstrict]
    rfl
  · rw [hvalidate]
    rfl
  · rw [hvalidate]
    rfl
  · rw [hvalidate]
    rfl
  · rw [hverdict, Bool.and_eq_true, Journal.unwarned_eq_true_iff]

end Session

end WireSchema
