import WireSchema.Proofs.Session.Lookup
import WireSchema.Proofs.Session.Roots

/-! # Sessions after the check

A check, whatever its result, seals a session. Each document that is brought later is refused with
an error and nothing else (`exists_refuse_of_validated`), and a later check leaves the session as it
is. So two sessions before and after such calls differ in their journals only (`SameModel`), and all
questions have the same answers (`check_seals_session`). -/

namespace WireSchema.Session

open Markup

variable {s t u : Session} {call : Call}

/-- The call brings a document, as an element, a text or a file. -/
def Call.bringsDocument : Call → Bool
  | .element _ | .named _ _ | .file _ _ => true
  | .listen | .validate => false

/-- What a call returns. -/
def verdict? (s : Session) : Call → Option Bool
  | .listen => none
  | .element root => some (s.parseElement root).2
  | .named name text => some (s.parseNamed name text).2
  | .file path content => some (s.parseFile path content).2
  | .validate => some s.validate.2

/-- The sessions differ in their journals only. -/
structure SameModel (s t : Session) : Prop where
  config : t.config = s.config
  schema : t.schema = s.schema
  validated : t.validated = s.validated

/-- Every question about the model has the same answer in both sessions. -/
structure SameAnswers (s t : Session) : Prop where
  fieldId : ∀ path, t.findFieldId? path = s.findFieldId? path
  fieldAt : ∀ id, t.field? id = s.field? id
  field : ∀ path, t.findField? path = s.findField? path
  interface : ∀ path, t.findInterface? path = s.findInterface? path
  message : ∀ path, t.findMessage? path = s.findMessage? path
  frame : ∀ path, t.findFrame? path = s.findFrame? path
  messageIdField : t.messageIdField? = s.messageIdField?
  allMessages : t.allMessages = s.allMessages
  gate : t.gate = s.gate
  versionDependentCode : t.versionDependentCode = s.versionDependentCode
  isValidated : t.isValidated = s.isValidated

theorem SameModel.rfl : SameModel s s := ⟨Eq.refl _, Eq.refl _, Eq.refl _⟩

theorem SameModel.trans (h : SameModel s t) (h' : SameModel t u) : SameModel s u :=
  ⟨h'.config.trans h.config, h'.schema.trans h.schema, h'.validated.trans h.validated⟩

/-- **The journal has no part in any answer.** -/
theorem SameModel.sameAnswers (h : SameModel s t) : SameAnswers s t := by
  obtain ⟨config, journal, schema, validated⟩ := s
  obtain ⟨config', journal', schema', validated'⟩ := t
  obtain ⟨rfl, rfl, rfl⟩ := h
  constructor <;> intros <;> rfl

/-! ### One call -/

/-- **After the check, a document is refused**, and its source is all that the session takes of
it. -/
theorem exists_refuse_of_validated (h : s.validated.isSome = true)
    (hcall : call.bringsDocument = true) : s.verdict? call = some false ∧
      ∃ source line failure, s.perform call =
        (refuse { s with journal := s.journal.withSource source } line failure).1 := by
  have hnamed (name text : String) : ∃ line failure, s.parseNamed name text =
      refuse { s with journal := s.journal.withSource name } line failure := by
    let named : Session := { s with journal := s.journal.withSource name }
    have hvalidated : named.validated.isSome = true := h
    unfold parseNamed
    cases Markup.parse text with
    | error fault => exact ⟨0, .error (.document fault), rfl⟩
    | ok root =>
      exact ⟨root.line, .error .documentAfterValidation, parseElement_of_validated hvalidated⟩
  cases call with
  | listen => cases hcall
  | validate => cases hcall
  | element root =>
    rw [verdict?, perform, parseElement_of_validated h]
    exact ⟨rfl, s.journal.source, root.line, .error .documentAfterValidation, rfl⟩
  | named name text =>
    obtain ⟨line, failure, hrefuse⟩ := hnamed name text
    rw [verdict?, perform, hrefuse]
    exact ⟨rfl, name, line, failure, rfl⟩
  | file path content =>
    cases content with
    | error fault => exact ⟨rfl, path, 0, .error (.file fault), rfl⟩
    | ok text =>
      obtain ⟨line, failure, hrefuse⟩ := hnamed path text
      rw [verdict?, perform, parseFile, hrefuse]
      exact ⟨rfl, path, line, failure, rfl⟩

/-- A document that is brought after the check leaves one diagnostic, an error. -/
theorem exists_reported_of_validated (h : s.validated.isSome = true)
    (hcall : call.bringsDocument = true) :
    ∃ d : Diagnostic, reported s (s.perform call) = [d] ∧ d.severity = .error := by
  obtain ⟨-, source, line, failure, hrefuse⟩ := exists_refuse_of_validated h hcall
  let named : Session := { s with journal := s.journal.withSource source }
  have hreported :
      reported named (s.perform call) = [⟨line, failure.cause⟩].map named.journal.entry :=
    reported_eq (by rw [hrefuse]; rfl)
  refine ⟨_, hreported, Journal.severity_entry_eq_error_iff.mpr (Or.inl ?_)⟩
  exact failure.isError_cause line

theorem validate_of_validated {result : Bool} (h : s.validated = some result) :
    s.validate = (s, result) := by
  unfold validate
  rw [h]

theorem sameModel_perform_of_validated (h : s.validated.isSome = true) (call : Call) :
    SameModel s (s.perform call) := by
  by_cases hcall : call.bringsDocument = true
  · obtain ⟨-, source, line, failure, hrefuse⟩ := exists_refuse_of_validated h hcall
    rw [hrefuse]
    exact ⟨rfl, rfl, rfl⟩
  · cases call with
    | listen => exact ⟨rfl, rfl, rfl⟩
    | validate =>
      obtain ⟨result, hresult⟩ := Option.isSome_iff_exists.mp h
      have hsame : s.perform .validate = s := congrArg Prod.fst (validate_of_validated hresult)
      rw [hsame]
      exact .rfl
    | element | named | file => exact absurd rfl hcall

/-! ### Runs -/

theorem sameModel_run_of_validated (h : s.validated.isSome = true) (calls : List Call) :
    SameModel s (s.run calls) := by
  induction calls generalizing s with
  | nil => exact .rfl
  | cons call calls ih =>
    have hstep := sameModel_perform_of_validated h call
    exact hstep.trans (ih (by rw [hstep.validated, h]))

/-- **The check seals a session.** Whatever a session has been through, and whatever the result of
the check is: after any later calls, the schema is the one that the check left, and every question
has the answer that it had then. A further check returns the result of the first one and leaves the
session as it is, its journal included, so that nothing is linked again. Each document is refused
with one error, and nothing else is reported. -/
theorem check_seals_session (s : Session) (calls : List Call) :
    let checked := s.validate.1
    let later := checked.run calls
    later.schema = checked.schema ∧
      later.validate = (later, s.validate.2) ∧
      (∀ call : Call, call.bringsDocument = true → later.verdict? call = some false ∧
        ∃ d : Diagnostic, reported later (later.perform call) = [d] ∧ d.severity = .error) ∧
      SameAnswers checked later := by
  intro checked later
  have hchecked : checked.validated = some s.validate.2 := validated_validate s
  have hsame : SameModel checked later :=
    sameModel_run_of_validated (Option.isSome_iff_exists.mpr ⟨_, hchecked⟩) calls
  have hlater : later.validated = some s.validate.2 := hsame.validated.trans hchecked
  have hsome : later.validated.isSome = true := Option.isSome_iff_exists.mpr ⟨_, hlater⟩
  refine ⟨hsame.schema, validate_of_validated hlater, fun call hcall => ⟨?_, ?_⟩,
    hsame.sameAnswers⟩
  · exact (exists_refuse_of_validated hsome hcall).1
  · exact exists_reported_of_validated hsome hcall

end WireSchema.Session
