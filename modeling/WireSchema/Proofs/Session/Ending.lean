import WireSchema.Proofs.Namespace.Unending
import WireSchema.Proofs.Session.Documents

/-! # Runs that come to an end

A call either comes to the end that the session without `?` has, or it has no end, and keeps what
was reported before (`Closes`). So it is for runs: one that comes to an end leaves the session that
its calls lead to (`run?_eq_ok`), and in any case what is reported stays (`told?_run?_append`). A
run has no end just when a declaration in one of its documents has none (`run?_eq_error_iff`). -/

namespace WireSchema

open Markup

/-- **A document is marked** just where one of its declarations has no end. -/
theorem Schema.marked_addDocument_iff (s : Schema) (e : Element) :
    (∃ x ∈ (s.addDocument e).findings, x.isEndless = true) ↔ ∃ t ∈ s.turns e, t.Endless := by
  have hcontent := Population.markedBy_add ⟨s.version, s.endian⟩ e properties ⟨s.root, s.catalogue⟩
  unfold turns addDocument
  dsimp only
  split_ifs with hother hnamed hnamed
  · change (!s.isNamedBy e) = true at hother
    simp [hnamed] at hother
  · simp [Finding.isEndless]
  · refine Iff.trans (Pass.exists_mark_append_iff ?_) hcontent
    cases (addPlatforms s.platforms (platformElements e)).2 with
    | none => exact fun _ hx => absurd hx List.not_mem_nil
    | some err => exact List.forall_mem_singleton.mpr rfl
  · change ¬ (!s.isNamedBy e) = true at hother
    simp [hnamed] at hother

namespace Session

/-- The session after a call, or the journal of a call without end. -/
def perform? (s : Session) : Call → Except Journal Session
  | .listen => .ok s.listen
  | .element root => (s.parseElement? root).map (·.1)
  | .named name text => (s.parseNamed? name text).map (·.1)
  | .file path content => (s.parseFile? path content).map (·.1)
  | .validate => .ok s.validate.1

/-- The session after the calls; the first of them that has no end is the last one. -/
def run? (s : Session) (calls : List Call) : Except Journal Session := calls.foldlM perform? s

/-- The session after the calls, from the start. -/
def after? (config : Config) (calls : List Call) : Except Journal Session :=
  (start config).run? calls

/-- What is reported, whether there is an end or not. -/
def told? (run : Except Journal Session) : List Diagnostic :=
  match run with
  | .ok s => s.journal.diagnostics.toList
  | .error j => j.diagnostics.toList

variable {s t : Session} {outcome : Outcome} {r : Session × Bool}

/-! ### Calls -/

/-- The call comes to the end, or it has none and keeps what was reported to `s`. -/
def Closes (s : Session) (outcome : Outcome) (r : Session × Bool) : Prop :=
  outcome = .ok r ∨
    ∃ j, outcome = .error j ∧ s.journal.diagnostics.toList <+: j.diagnostics.toList

theorem closes_ok (s : Session) (r : Session × Bool) : Closes s (.ok r) r := Or.inl rfl

theorem Closes.of_keeps (h : Closes t outcome r) (hst : Keeps s t) : Closes s outcome r :=
  h.imp_right fun ⟨j, hj, hkept⟩ => ⟨j, hj, List.IsPrefix.trans hst hkept⟩

theorem closes_addTo? (s : Session) (schema : Schema) (root : Element) :
    Closes s (s.addTo? schema root) (s.addTo schema root) := by
  unfold addTo?
  dsimp only
  split_ifs
  · exact Or.inr ⟨_, rfl, keeps_add s _⟩
  · exact closes_ok s _

theorem closes_parseElement? (s : Session) (root : Element) :
    Closes s (s.parseElement? root) (s.parseElement root) := by
  unfold parseElement? parseElement
  split_ifs
  · exact closes_ok s _
  · cases s.schema with
    | some schema => exact closes_addTo? s schema root
    | none =>
      dsimp only
      cases (Schema.read root).result with
      | error failure => exact closes_ok s _
      | ok schema => exact (closes_addTo? _ schema root).of_keeps (keeps_add s _)

theorem closes_parseNamed? (s : Session) (name text : String) :
    Closes s (s.parseNamed? name text) (s.parseNamed name text) := by
  unfold parseNamed? parseNamed
  dsimp only
  cases Markup.parse text with
  | error fault => exact closes_ok s _
  | ok root => exact closes_parseElement? { s with journal := s.journal.withSource name } root

theorem closes_parseFile? (s : Session) (path : String) (content : Except FileFault String) :
    Closes s (s.parseFile? path content) (s.parseFile path content) := by
  cases content with
  | error fault => exact closes_ok s _
  | ok text => exact closes_parseNamed? s path text

/-- A call comes to the end that `perform` gives, or it has none. -/
theorem perform?_cases (s : Session) (call : Call) : s.perform? call = .ok (s.perform call) ∨
    ∃ j, s.perform? call = .error j ∧ s.journal.diagnostics.toList <+: j.diagnostics.toList := by
  have hfst {outcome : Outcome} {r : Session × Bool} (h : Closes s outcome r) :
      outcome.map (·.1) = .ok r.1 ∨ ∃ j, outcome.map (·.1) = .error j ∧
        s.journal.diagnostics.toList <+: j.diagnostics.toList := by
    rcases h with rfl | ⟨j, rfl, hkept⟩
    · exact Or.inl rfl
    · exact Or.inr ⟨j, rfl, hkept⟩
  cases call with
  | listen => exact Or.inl rfl
  | element root => exact hfst (closes_parseElement? s root)
  | named name text => exact hfst (closes_parseNamed? s name text)
  | file path content => exact hfst (closes_parseFile? s path content)
  | validate => exact Or.inl rfl

/-! ### Runs -/

theorem run?_append (s : Session) (calls more : List Call) :
    s.run? (calls ++ more) = s.run? calls >>= fun t => t.run? more :=
  List.foldlM_append

/-- **A run that comes to an end leaves the session that its calls lead to.** -/
theorem run?_eq_ok {calls : List Call} (h : s.run? calls = .ok t) : s.run calls = t := by
  induction calls generalizing s with
  | nil => exact Except.ok.inj h
  | cons call calls ih =>
    obtain ⟨next, hnext, hrest⟩ := bind_eq_ok.mp ((List.foldlM_cons ..).symm.trans h)
    rcases perform?_cases s call with hcall | ⟨j, hcall, -⟩
    · rw [hcall, Except.ok.injEq] at hnext
      subst hnext
      exact ih hrest
    · rw [hcall] at hnext
      cases hnext

theorem keeps_run? (s : Session) (calls : List Call) :
    s.journal.diagnostics.toList <+: told? (s.run? calls) := by
  induction calls generalizing s with
  | nil => exact List.prefix_rfl
  | cons call calls ih =>
    unfold run?
    rw [List.foldlM_cons]
    rcases perform?_cases s call with hcall | ⟨j, hcall, hkept⟩
    · rw [hcall]
      exact List.IsPrefix.trans (keeps_perform s call) (ih _)
    · rw [hcall]
      exact hkept

/-- **What is reported stays**, whether a run comes to an end or not. -/
theorem told?_run?_append (s : Session) (calls more : List Call) :
    told? (s.run? calls) <+: told? (s.run? (calls ++ more)) := by
  rw [run?_append]
  cases s.run? calls with
  | error j => exact List.prefix_rfl
  | ok t => exact keeps_run? t more

/-! ### Runs without end -/

/-- A declaration of the document has no end. -/
def ReceivesEndless (s : Session) (root : Element) : Prop :=
  ∃ schema, s.receiver? root = some schema ∧ ∃ t ∈ schema.turns root, t.Endless

/-- The call brings a document with a declaration that has no end. -/
def BringsEndless (s : Session) (call : Call) : Prop :=
  ∃ root, call.root? = some root ∧ s.ReceivesEndless root

theorem exists_addTo?_eq_error_iff {schema : Schema} {root : Element} :
    (∃ j, s.addTo? schema root = .error j) ↔ ∃ t ∈ schema.turns root, t.Endless := by
  rw [← schema.marked_addDocument_iff, ← List.any_eq_true]
  unfold addTo?
  dsimp only
  split_ifs with h
  · exact iff_of_true ⟨_, rfl⟩ h
  · exact iff_of_false (fun ⟨_, hj⟩ => nomatch hj) h

theorem exists_parseElement?_eq_error_iff {root : Element} :
    (∃ j, s.parseElement? root = .error j) ↔ s.ReceivesEndless root := by
  unfold parseElement? ReceivesEndless receiver?
  split_ifs
  · exact iff_of_false (fun ⟨_, hj⟩ => nomatch hj) fun ⟨_, hs, _⟩ => nomatch hs
  · cases s.schema with
    | some schema => simpa using exists_addTo?_eq_error_iff
    | none =>
      dsimp only
      cases (Schema.read root).result with
      | error failure =>
        exact iff_of_false (fun ⟨_, hj⟩ => nomatch hj) fun ⟨_, hs, _⟩ => nomatch hs
      | ok schema => simpa [Except.toOption] using exists_addTo?_eq_error_iff

theorem exists_parseNamed?_eq_error_iff {name text : String} :
    (∃ j, s.parseNamed? name text = .error j) ↔ s.BringsEndless (.named name text) := by
  unfold parseNamed? BringsEndless Call.root?
  dsimp only
  cases Markup.parse text with
  | error fault =>
    exact iff_of_false (fun ⟨_, hj⟩ => nomatch hj) fun ⟨_, hroot, _⟩ => nomatch hroot
  | ok root =>
    simp only [Except.toOption, Option.some.injEq, exists_eq_left']
    exact exists_parseElement?_eq_error_iff

/-- **A call has no end** just when it brings a declaration that has none. -/
theorem exists_perform?_eq_error_iff {call : Call} :
    (∃ j, s.perform? call = .error j) ↔ s.BringsEndless call := by
  have hfst {outcome : Outcome} :
      (∃ j, outcome.map (·.1) = .error j) ↔ ∃ j, outcome = .error j := by
    cases outcome with
    | error j => exact iff_of_true ⟨_, rfl⟩ ⟨_, rfl⟩
    | ok r => exact iff_of_false (fun ⟨_, hj⟩ => nomatch hj) fun ⟨_, hj⟩ => nomatch hj
  have hnothing {t : Session} {call : Call} (hroot : call.root? = none) :
      (∃ j, (Except.ok t : Except Journal Session) = .error j) ↔ s.BringsEndless call := by
    refine iff_of_false (fun ⟨_, hj⟩ => nomatch hj) fun ⟨root, hsome, _⟩ => ?_
    rw [hroot] at hsome
    cases hsome
  cases call with
  | listen => exact hnothing rfl
  | element root =>
    refine hfst.trans (exists_parseElement?_eq_error_iff.trans ?_)
    simp [BringsEndless, Call.root?]
  | named name text => exact hfst.trans exists_parseNamed?_eq_error_iff
  | file path content =>
    cases content with
    | error fault => exact hnothing rfl
    | ok text => exact hfst.trans exists_parseNamed?_eq_error_iff
  | validate => exact hnothing rfl

/-- **A run has no end** just when one of its calls, after calls that come to an end, brings a
declaration that has none. -/
theorem exists_run?_eq_error_iff {calls : List Call} : (∃ j, s.run? calls = .error j) ↔
    ∃ done call rest t, calls = done ++ call :: rest ∧ s.run? done = .ok t ∧
      t.BringsEndless call := by
  constructor
  · rintro ⟨j, h⟩
    induction calls generalizing s with
    | nil => cases h
    | cons call calls ih =>
      rcases perform?_cases s call with hcall | ⟨j', hcall, -⟩
      · obtain ⟨done, next, rest, t, rfl, hdone, hnext⟩ := ih (s := s.perform call) (by
          unfold run? at h ⊢
          rwa [List.foldlM_cons, hcall] at h)
        refine ⟨call :: done, next, rest, t, rfl, ?_, hnext⟩
        unfold run?
        rw [List.foldlM_cons, hcall]
        exact hdone
      · exact ⟨[], call, calls, s, rfl, rfl, exists_perform?_eq_error_iff.mp ⟨j', hcall⟩⟩
  · rintro ⟨done, call, rest, t, rfl, hdone, hcall⟩
    obtain ⟨j, hj⟩ := exists_perform?_eq_error_iff.mpr hcall
    refine ⟨j, ?_⟩
    rw [run?_append, hdone]
    show t.run? (call :: rest) = .error j
    unfold run?
    rw [List.foldlM_cons, hj]
    rfl

end Session

end WireSchema
