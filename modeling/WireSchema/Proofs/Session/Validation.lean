import WireSchema.Proofs.Schema.Checking
import WireSchema.Proofs.Session.Run
import WireSchema.Proofs.Session.Verdict

/-! # The verdict of the check

The first check of a session succeeds just when the journal holds no error after it
(`hasErrors_validate_iff`), whatever was found in the documents or in linking them. A document that
is refused leaves an error, and what is in the journal stays in it (`keeps_run`). -/

namespace WireSchema

open Markup

namespace Session

variable {s : Session} {schema : Schema}

/-! ### The check -/

theorem hasErrors_refuse (s : Session) (line : Nat) (failure : Failure) :
    (s.refuse line failure).1.journal.hasErrors = true := by
  by_contra h
  obtain ⟨-, hno⟩ := Journal.hasErrors_addAll_eq_false_iff.mp ((Bool.not_eq_true _).mp h)
  exact hno _ (List.mem_singleton_self _)
    (Journal.severity_entry_eq_error_iff.mpr (Or.inl (failure.isError_cause line)))

theorem hasErrors_linkAndCheck_iff (s : Session) (schema : Schema) :
    (s.linkAndCheck schema).2 = true ↔ (s.linkAndCheck schema).1.journal.hasErrors = false := by
  obtain ⟨ok, hok, hiff⟩ := schema.link.1.candid_check
    (s.config.versionDependentCode.getD schema.link.1.hasVersionField)
  unfold linkAndCheck
  dsimp only [add]
  rw [hok]
  simp only [Bool.and_eq_true, Bool.not_eq_true', and_iff_right_iff_imp]
  -- nothing that the check found is in the journal as an error
  intro hclean
  refine hiff.mpr fun x hx => ?_
  have hsev := (Journal.hasErrors_addAll_eq_false_iff.mp hclean).2 x hx
  rw [ne_eq, Journal.severity_entry_eq_error_iff, not_or] at hsev
  simpa using hsev.1

theorem hasErrors_runValidation_iff (s : Session) :
    s.runValidation.2 = true ↔ s.runValidation.1.journal.hasErrors = false := by
  have hrefuse (line : Nat) (failure : Failure) :
      (s.refuse line failure).2 = true ↔ (s.refuse line failure).1.journal.hasErrors = false := by
    rw [hasErrors_refuse]
    exact iff_of_false Bool.false_ne_true (Bool.noConfusion ·)
  unfold runValidation
  split
  · exact hrefuse _ _
  · split
    · exact hasErrors_linkAndCheck_iff s _
    · split_ifs
      · exact hrefuse _ _
      · exact hasErrors_linkAndCheck_iff s _

/-- **The first check succeeds if and only if the journal holds no error after it.** -/
theorem hasErrors_validate_iff (h : s.validated = none) :
    s.validate.2 = true ↔ s.validate.1.journal.hasErrors = false := by
  unfold validate
  rw [h]
  exact hasErrors_runValidation_iff s

/-! ### Documents before the check -/

theorem validated_parseElement (s : Session) (root : Element) :
    (s.parseElement root).1.validated = s.validated := by
  unfold parseElement
  split_ifs
  · rfl
  · split
    · rfl
    · dsimp only
      split <;> rfl

theorem validated_parseNamed (s : Session) (name text : String) :
    (s.parseNamed name text).1.validated = s.validated := by
  unfold parseNamed
  dsimp only
  split
  · rfl
  · exact validated_parseElement _ _

theorem validated_perform {call : Call} (h : call ≠ .validate) :
    (s.perform call).validated = s.validated := by
  cases call with
  | listen => rfl
  | element root => exact validated_parseElement s root
  | named name text => exact validated_parseNamed s name text
  | file path content =>
    cases content with
    | error fault => rfl
    | ok text => exact validated_parseNamed s path text
  | validate => exact absurd rfl h

theorem validated_run {calls : List Call} (h : Call.validate ∉ calls) :
    (s.run calls).validated = s.validated := by
  induction calls generalizing s with
  | nil => rfl
  | cons call calls ih =>
    rw [List.mem_cons, not_or] at h
    exact (ih h.2).trans (validated_perform (Ne.symm h.1))

theorem hasErrors_of_parseElement {root : Element} (h : (s.parseElement root).2 = false) :
    (s.parseElement root).1.journal.hasErrors = true := by
  by_contra hclean
  have hno : NoError s (s.parseElement root).1 := fun d hd =>
    Journal.hasErrors_eq_false_iff.mp ((Bool.not_eq_true _).mp hclean) d (List.mem_of_mem_drop hd)
  rw [((noError_parseElement_iff s root).mp hno).1] at h
  exact Bool.noConfusion h

theorem hasErrors_of_parseNamed {name text : String} (h : (s.parseNamed name text).2 = false) :
    (s.parseNamed name text).1.journal.hasErrors = true := by
  unfold parseNamed at h ⊢
  dsimp only at h ⊢
  split
  · exact hasErrors_refuse _ _ _
  · rename_i hparse
    rw [hparse] at h
    exact hasErrors_of_parseElement h

theorem hasErrors_of_parseFile {path : String} {content : Except FileFault String}
    (h : (s.parseFile path content).2 = false) :
    (s.parseFile path content).1.journal.hasErrors = true := by
  cases content with
  | error fault => exact hasErrors_refuse _ _ _
  | ok text => exact hasErrors_of_parseNamed h

/-! ### The journal only grows -/

/-- The diagnostics of a session are at the start of those of a later one. -/
def Keeps (s later : Session) : Prop :=
  s.journal.diagnostics.toList <+: later.journal.diagnostics.toList

theorem Keeps.rfl : Keeps s s := List.prefix_rfl

theorem Keeps.trans {t u : Session} (h : Keeps s t) (h' : Keeps t u) : Keeps s u :=
  List.IsPrefix.trans h h'

theorem Keeps.hasErrors {later : Session} (h : Keeps s later) (he : s.journal.hasErrors = true) :
    later.journal.hasErrors = true := by
  by_contra hclean
  have hno := Journal.hasErrors_eq_false_iff.mp ((Bool.not_eq_true _).mp hclean)
  rw [Journal.hasErrors_eq_false_iff.mpr fun d hd => hno d (h.mem hd)] at he
  exact Bool.noConfusion he

theorem keeps_add (s : Session) (fs : List Finding) : Keeps s (s.add fs) := by
  unfold Keeps add
  rw [Journal.toList_addAll]
  exact List.prefix_append _ _

theorem keeps_parseElement (s : Session) (root : Element) : Keeps s (s.parseElement root).1 := by
  unfold parseElement
  split_ifs
  · exact keeps_add _ _
  · split
    · exact keeps_add _ _
    · have hread := keeps_add s (Schema.read root).findings
      dsimp only
      split
      · exact hread.trans (keeps_add _ _)
      · exact hread.trans (keeps_add _ _)

theorem keeps_parseNamed (s : Session) (name text : String) :
    Keeps s (s.parseNamed name text).1 := by
  have hsource : Keeps s { s with journal := s.journal.withSource name } := Keeps.rfl
  unfold parseNamed
  dsimp only
  split
  · exact hsource.trans (keeps_add _ _)
  · exact hsource.trans (keeps_parseElement _ _)

theorem keeps_linkAndCheck (s : Session) (schema : Schema) : Keeps s (s.linkAndCheck schema).1 := by
  have hlink : Keeps s ({ s with schema := some schema.link.1 }.add schema.link.2) :=
    keeps_add _ _
  unfold linkAndCheck
  dsimp only
  split
  · exact hlink.trans (keeps_add _ _)
  · exact (hlink.trans (keeps_add _ _)).trans (keeps_add _ _)

theorem keeps_validate (s : Session) : Keeps s s.validate.1 := by
  unfold validate
  split
  · exact Keeps.rfl
  · unfold runValidation
    dsimp only
    split
    · exact keeps_add _ _
    · split
      · exact keeps_linkAndCheck _ _
      · split_ifs
        · exact keeps_add _ _
        · exact keeps_linkAndCheck _ _

theorem keeps_perform (s : Session) (call : Call) : Keeps s (s.perform call) := by
  cases call with
  | listen => exact Keeps.rfl
  | element root => exact keeps_parseElement s root
  | named name text => exact keeps_parseNamed s name text
  | file path content =>
    cases content with
    | error fault => exact keeps_add { s with journal := s.journal.withSource path } _
    | ok text => exact keeps_parseNamed s path text
  | validate => exact keeps_validate s

/-- **What is in the journal stays in it, whatever is called.** -/
theorem keeps_run (s : Session) (calls : List Call) : Keeps s (s.run calls) := by
  induction calls generalizing s with
  | nil => exact Keeps.rfl
  | cons call calls ih => exact (keeps_perform s call).trans (ih _)

theorem run_append (s : Session) (calls more : List Call) :
    s.run (calls ++ more) = (s.run calls).run more :=
  List.foldl_append

end Session

end WireSchema
