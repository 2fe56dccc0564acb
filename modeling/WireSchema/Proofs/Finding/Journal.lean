import WireSchema.Finding.Journal

/-! # The journal: laws

Findings are written down in order after what is there already (`toList_addAll`). A journal without
errors has taken no finding that is an error (`hasErrors_addAll_eq_false_iff`). -/

namespace WireSchema.Journal

variable {j : Journal}

/-- The severity of a finding before the journal decides about it. -/
def severityOf (f : Finding) : Severity := if f.isError then .error else .warning

/-- The diagnostic that a finding is written down as. -/
def entry (j : Journal) (f : Finding) : Diagnostic :=
  ⟨j.promote (severityOf f), j.source, f.line, f.message⟩

theorem warnAsError_addAll (j : Journal) (fs : List Finding) :
    (j.addAll fs).warnAsError = j.warnAsError := by
  induction fs generalizing j with
  | nil => rfl
  | cons f fs ih => exact ih (j.add f)

theorem source_addAll (j : Journal) (fs : List Finding) : (j.addAll fs).source = j.source := by
  induction fs generalizing j with
  | nil => rfl
  | cons f fs ih => exact ih (j.add f)

theorem addAll_append (j : Journal) (fs gs : List Finding) :
    j.addAll (fs ++ gs) = (j.addAll fs).addAll gs := List.foldl_append

/-- **Findings are written down in order after the diagnostics there are.** -/
theorem toList_addAll (j : Journal) (fs : List Finding) :
    (j.addAll fs).diagnostics.toList = j.diagnostics.toList ++ fs.map j.entry := by
  induction fs generalizing j with
  | nil => simp [addAll]
  | cons f fs ih =>
    rw [addAll, List.foldl_cons]
    refine (ih (j.add f)).trans ?_
    rw [List.map_cons, List.append_cons, ← Array.toList_push]
    rfl

theorem entry_addAll (j : Journal) (fs : List Finding) : (j.addAll fs).entry = j.entry := by
  funext f
  unfold entry promote
  rw [warnAsError_addAll, source_addAll]

theorem severity_entry_eq_error_iff {f : Finding} :
    (j.entry f).severity = .error ↔ f.isError = true ∨ j.warnAsError = true := by
  dsimp only [entry, promote, severityOf]
  cases f.isError <;> cases j.warnAsError <;> simp

theorem count_eq_countP (j : Journal) (s : Severity) :
    j.count s = j.diagnostics.toList.countP (·.severity == s) :=
  Array.countP_toList.symm

theorem count_addAll (j : Journal) (s : Severity) (fs : List Finding) :
    (j.addAll fs).count s = j.count s + (fs.map j.entry).countP (·.severity == s) := by
  rw [count_eq_countP, count_eq_countP, toList_addAll, List.countP_append]

/-- **Findings leave the number of errors as it is if none is written down as one.** -/
theorem count_addAll_eq_iff {fs : List Finding} :
    (j.addAll fs).count .error = j.count .error ↔ ∀ f ∈ fs, (j.entry f).severity ≠ .error := by
  rw [count_addAll, Nat.add_eq_left, List.countP_eq_zero]
  simp

theorem hasErrors_eq_false_iff :
    j.hasErrors = false ↔ ∀ d ∈ j.diagnostics.toList, d.severity ≠ .error := by
  unfold hasErrors
  rw [decide_eq_false_iff_not, Nat.not_lt, Nat.le_zero, count_eq_countP, List.countP_eq_zero]
  simp

theorem hasErrors_addAll_eq_false_iff {fs : List Finding} :
    (j.addAll fs).hasErrors = false ↔
      j.hasErrors = false ∧ ∀ f ∈ fs, (j.entry f).severity ≠ .error := by
  rw [hasErrors_eq_false_iff, hasErrors_eq_false_iff, toList_addAll]
  constructor
  · intro h
    exact ⟨fun d hd => h d (List.mem_append_left _ hd),
      fun f hf => h _ (List.mem_append_right _ (List.mem_map_of_mem hf))⟩
  · rintro ⟨hj, hfs⟩ d hd
    rcases List.mem_append.mp hd with hd | hd
    · exact hj d hd
    · obtain ⟨f, hf, rfl⟩ := List.mem_map.mp hd
      exact hfs f hf

end WireSchema.Journal
