import WireSchema.Proofs.Finding.Journal
import WireSchema.Proofs.Namespace.Growth
import WireSchema.Session

/-! # The verdict on a document

A document that is not taken leaves an error (`exists_isError_of_addDocument`). The verdict is
positive just when nothing that the content of the document adds is written down as an error; what
is found in reading the first document as a schema does not count (`verdict_iff_no_error`). -/

namespace WireSchema

open Markup

/-! ### Failures leave errors -/

theorem Growth.exists_isError_of_ofPass {p : Population} {line : Nat} {pass : Pass Population}
    (h : (Growth.ofPass p line pass).ok = false) :
    ∃ x ∈ (Growth.ofPass p line pass).findings, x.isError = true := by
  refine Pass.exists_isError_of_settle ?_
  unfold Growth.ofPass at h
  simpa using h

theorem Population.exists_isError_of_addNested {setting : Setting} {p : Population} {e : Element}
    {fill : Population → Growth} (h : (addNested setting p e fill).ok = false) :
    ∃ x ∈ (addNested setting p e fill).findings, x.isError = true := by
  unfold addNested at h ⊢
  dsimp only at h ⊢
  split
  · exact ⟨_, List.mem_append_right _ (List.mem_singleton_self _), Failure.isError_cause _ _⟩
  · split
    · exact ⟨_, List.mem_append_right _ (List.mem_singleton_self _), rfl⟩
    · split_ifs
      · simp_all
      · exact ⟨_, List.mem_append_right _ (List.mem_singleton_self _), rfl⟩

/-- What is added without success leaves an error. -/
theorem Growth.isError_law (setting : Setting) :
    Growth.Law setting fun _ g => g.ok = false → ∃ x ∈ g.findings, x.isError = true where
  warnings _ _ h := by simp [Growth.warnings] at h
  andThen hg hh h := by
    rcases Bool.and_eq_false_iff.mp h with h | h
    · obtain ⟨x, hx, he⟩ := hg h
      exact ⟨x, List.mem_append_left _ hx, he⟩
    · obtain ⟨x, hx, he⟩ := hh h
      exact ⟨x, List.mem_append_right _ hx, he⟩
  field _ _ := Growth.exists_isError_of_ofPass
  interface _ _ := Growth.exists_isError_of_ofPass
  message _ _ := Growth.exists_isError_of_ofPass
  frame _ _ := Growth.exists_isError_of_ofPass
  nested _ _ _ _ := Population.exists_isError_of_addNested

/-- **A document that is added without success leaves an error.** -/
theorem Schema.exists_isError_of_addDocument {s : Schema} {e : Element}
    (h : (s.addDocument e).ok = false) : ∃ x ∈ (s.addDocument e).findings, x.isError = true := by
  unfold Schema.addDocument at h ⊢
  dsimp only at h ⊢
  split_ifs at h ⊢ with hname
  · exact ⟨_, List.mem_singleton_self _, rfl⟩
  · rcases Bool.and_eq_false_iff.mp h with h | h
    · obtain ⟨x, hx, he⟩ := (Growth.isError_law _).add _ _ _ h
      exact ⟨x, List.mem_append_right _ hx, he⟩
    · cases hp : (addPlatforms s.platforms (platformElements e)).2 with
      | none => simp [hp] at h
      | some err => exact ⟨_, List.mem_append_left _ (List.mem_singleton_self _), rfl⟩

/-- Reading a schema finds nothing but warnings. -/
theorem Schema.warnsOnly_read (e : Element) : (Schema.read e).WarnsOnly := by
  unfold Schema.read
  refine (Pass.warnsOnly_require _ _).bind fun _ => ?_
  refine (Pass.warnsOnly_liftM _).bind fun _ => ?_
  refine (Pass.warnsOnly_liftM _).bind fun _ => ?_
  refine (Pass.warnsOnly_liftM _).bind fun _ => ?_
  refine (Pass.warnsOnly_liftM _).bind fun _ => ?_
  refine (Pass.warnsOnly_liftM _).bind fun _ => ?_
  refine (Pass.warnsOnly_liftM _).bind fun _ => ?_
  refine (Pass.warnsOnly_warnAll _).bind fun _ => ?_
  refine (Pass.warnsOnly_liftM _).bind fun _ => ?_
  exact Pass.warnsOnly_pure _

namespace Session

variable {s : Session} {schema : Schema} {root : Element}

/-! ### What a call reports -/

/-- The diagnostics that are in the journal of `after` and not yet in that of `s`. -/
def reported (s after : Session) : List Diagnostic :=
  after.journal.diagnostics.toList.drop s.journal.diagnostics.size

/-- The line and the message of a diagnostic. -/
def told (d : Diagnostic) : Nat × String := (d.line, d.message)

theorem told_entry (j : Journal) (x : Finding) : told (j.entry x) = (x.line, x.message) := rfl

/-- None of the diagnostics that `after` has more than `s` is an error. -/
def NoError (s after : Session) : Prop := ∀ d ∈ reported s after, d.severity ≠ .error

/-- What is found in reading the element as a schema, which is done with the first document. -/
def readFindings (s : Session) (root : Element) : List Finding :=
  if s.validated.isSome || s.schema.isSome then [] else (Schema.read root).findings

theorem reported_eq {after : Session} {fs : List Finding}
    (h : after.journal = s.journal.addAll fs) : reported s after = fs.map s.journal.entry := by
  unfold reported
  rw [h, Journal.toList_addAll, ← Array.length_toList, List.drop_left]

theorem noError_iff {after : Session} {fs : List Finding}
    (h : after.journal = s.journal.addAll fs) :
    NoError s after ↔ ∀ x ∈ fs, (s.journal.entry x).severity ≠ .error := by
  unfold NoError
  rw [reported_eq h]
  exact List.forall_mem_map

theorem not_noError_of_isError {after : Session} {fs : List Finding}
    (h : after.journal = s.journal.addAll fs) {x : Finding} (hx : x ∈ fs)
    (he : x.isError = true) : ¬ NoError s after := by
  rw [noError_iff h]
  intro hno
  exact hno x hx (Journal.severity_entry_eq_error_iff.mpr (Or.inl he))

/-! ### The verdict -/

theorem journal_addTo (s : Session) (schema : Schema) (root : Element) :
    (s.addTo schema root).1.journal = s.journal.addAll (schema.addDocument root).findings := rfl

theorem addTo_verdict :
    (s.addTo schema root).2 = true ↔
      ∀ x ∈ (schema.addDocument root).findings, (s.journal.entry x).severity ≠ .error := by
  rw [← Journal.count_addAll_eq_iff]
  unfold addTo
  dsimp only [Session.add]
  rw [Bool.and_eq_true, beq_iff_eq, and_iff_right_iff_imp]
  intro hcount
  by_contra hok
  obtain ⟨x, hx, he⟩ := Schema.exists_isError_of_addDocument ((Bool.not_eq_true _).mp hok)
  exact Journal.count_addAll_eq_iff.mp hcount x hx
    (Journal.severity_entry_eq_error_iff.mpr (Or.inl he))

/-- The severities of what reading a schema finds are those of warnings. -/
theorem severity_entry_of_read (j : Journal) (root : Element) :
    (∀ x ∈ (Schema.read root).findings, (j.entry x).severity ≠ .error) ↔
      (j.warnAsError = true → (Schema.read root).findings = []) := by
  simp only [ne_eq, Journal.severity_entry_eq_error_iff, not_or]
  constructor
  · intro h hwarn
    exact List.eq_nil_iff_forall_not_mem.mpr fun x hx => (h x hx).2 hwarn
  · intro h x hx
    refine ⟨by rw [Schema.warnsOnly_read root x hx]; simp, fun hwarn => ?_⟩
    rw [h hwarn] at hx
    simp at hx

/-- **The verdict on an element.** No error is reported if and only if the verdict is positive and
nothing that is written down as an error was found in reading the element as a schema. -/
theorem noError_parseElement_iff (s : Session) (root : Element) :
    NoError s (s.parseElement root).1 ↔
      (s.parseElement root).2 = true ∧
        (s.journal.warnAsError = true → s.readFindings root = []) := by
  unfold Session.parseElement readFindings
  cases hvalidated : s.validated with
  | some result =>
    rw [Option.isSome_some, if_pos rfl]
    refine iff_of_false ?_ fun h => absurd h.1 Bool.false_ne_true
    exact not_noError_of_isError rfl (List.mem_singleton_self _) rfl
  | none =>
    rw [Option.isSome_none, if_neg Bool.false_ne_true, Bool.false_or]
    cases hschema : s.schema with
    | some schema =>
      simp [noError_iff (journal_addTo s schema root), addTo_verdict]
    | none =>
      rw [Option.isSome_none, if_neg Bool.false_ne_true]
      dsimp only
      cases hread : (Schema.read root).result with
      | error failure =>
        refine iff_of_false ?_ fun h => absurd h.1 Bool.false_ne_true
        have hjournal := (s.journal.addAll_append (Schema.read root).findings
          [⟨root.line, failure.cause⟩]).symm
        exact not_noError_of_isError hjournal
          (List.mem_append_right _ (List.mem_singleton_self _)) (failure.isError_cause _)
      | ok schema =>
        have hjournal : ((s.add (Schema.read root).findings).addTo schema root).1.journal =
            s.journal.addAll
              ((Schema.read root).findings ++ (schema.addDocument root).findings) :=
          (s.journal.addAll_append _ _).symm
        have hentry : (s.add (Schema.read root).findings).journal.entry = s.journal.entry :=
          Journal.entry_addAll _ _
        dsimp only
        rw [noError_iff hjournal, addTo_verdict, hentry, ← severity_entry_of_read,
          List.forall_mem_append]
        exact and_comm

/-- **The verdict on a document.** No error is reported in a call if and only if the verdict is
positive and, where warnings count as errors, there was none in reading the first document as a
schema. This holds of documents given as elements and of those given as texts. -/
theorem verdict_iff_no_error (s : Session) (root : Element) (name text : String) :
    (NoError s (s.parseElement root).1 ↔
      (s.parseElement root).2 = true ∧
        (s.journal.warnAsError = true → s.readFindings root = [])) ∧
    (NoError s (s.parseNamed name text).1 ↔
      (s.parseNamed name text).2 = true ∧
        (s.journal.warnAsError = true → ∀ e, Markup.parse text = .ok e →
          s.readFindings e = [])) := by
  refine ⟨noError_parseElement_iff s root, ?_⟩
  have hsource (after : Session) :
      NoError s after ↔ NoError { s with journal := s.journal.withSource name } after := Iff.rfl
  unfold Session.parseNamed
  dsimp only
  cases hparse : Markup.parse text with
  | error fault =>
    rw [hsource]
    refine iff_of_false ?_ fun h => absurd h.1 Bool.false_ne_true
    exact not_noError_of_isError rfl (List.mem_singleton_self _) rfl
  | ok root =>
    rw [hsource, noError_parseElement_iff]
    simp only [Except.ok.injEq, forall_eq']
    exact Iff.rfl

/-- With warnings as errors, a first document with an unknown property of the schema is taken
although an error is reported. -/
theorem verdict_of_unknown_property :
    let s := start ⟨none, 0, none, true⟩
    let r := s.parse "<schema name=\"P\" bogus=\"1\"/>"
    r.2 = true ∧ ¬ NoError s r.1 := by
  refine ⟨by decide +kernel, ?_⟩
  unfold NoError
  decide +kernel

end Session

end WireSchema
