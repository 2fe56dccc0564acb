import WireSchema.CommandLine
import WireSchema.Proofs.Session.Ending

/-! # The exit code of the command line

A run takes the files one after the other and checks the schema if all of them are taken; it is a
run of the session (`takeAndCheck_fst`). If it comes to an end, its exit code says whether any error
was reported in it (`code_of_run`). A run without end is aborted, whatever was reported: this is so
of a document in which a member reuses what it is a member of (`innerReuse`). -/

namespace WireSchema.CommandLine

open Session

variable {request : Request} {read : String → Except FileFault String}

/-! ### Files -/

/-- The calls that take the files. -/
def fileCalls (read : String → Except FileFault String) (paths : List String) : List Call :=
  paths.map fun path => .file path (read path)

/-- The calls of a run: the files, and the check if all of them are taken. -/
def calls (request : Request) (read : String → Except FileFault String) : List Call :=
  fileCalls read request.files ++
    match takeFiles read (.start request.config) request.files with
    | .ok (_, true) => [.validate]
    | _ => []

/-- What is reported in a run. -/
def reports (request : Request) (read : String → Except FileFault String) : List Diagnostic :=
  told? (after? request.config (calls request read))

theorem takeFiles_fst (read : String → Except FileFault String) (s : Session)
    (paths : List String) :
    (takeFiles read s paths).map (·.1) = s.run? (fileCalls read paths) := by
  induction paths generalizing s with
  | nil => rfl
  | cons path paths ih =>
    have hrun : s.run? (fileCalls read (path :: paths)) =
        (s.parseFile? path (read path)).map (·.1) >>= fun t => t.run? (fileCalls read paths) := rfl
    rw [hrun, takeFiles]
    cases s.parseFile? path (read path) with
    | error j => rfl
    | ok r =>
      refine Eq.trans ?_ (ih r.1)
      cases htake : takeFiles read r.1 paths with
      | error j => simp [htake, Bind.bind, Except.bind, Except.map]
      | ok rest => simp [htake, Bind.bind, Except.bind, Except.map, Pure.pure, Except.pure]

theorem run_of_takeFiles {s : Session} {r : Session × Bool} {paths : List String}
    (h : takeFiles read s paths = .ok r) : s.run (fileCalls read paths) = r.1 := by
  have hrun := takeFiles_fst read s paths
  rw [h] at hrun
  exact run?_eq_ok hrun.symm

/-- A file that is not taken leaves an error. -/
theorem hasErrors_of_takeFiles {s t : Session} {paths : List String}
    (h : takeFiles read s paths = .ok (t, false)) : t.journal.hasErrors = true := by
  induction paths generalizing s with
  | nil => cases h
  | cons path paths ih =>
    rw [takeFiles] at h
    obtain ⟨r, hfile, h⟩ := bind_eq_ok.mp h
    obtain ⟨rest, hrest, h⟩ := bind_eq_ok.mp h
    obtain ⟨rfl, hflag⟩ := Prod.mk.inj (Except.ok.inj h)
    rcases Bool.and_eq_false_iff.mp hflag with hrefused | hlater
    · have hkept : Keeps r.1 rest.1 := by
        rw [← run_of_takeFiles hrest]
        exact keeps_run _ _
      have hclosed := closes_parseFile? s path (read path)
      rw [hfile] at hclosed
      obtain heq | ⟨_, ⟨⟩, -⟩ := hclosed
      obtain rfl := Except.ok.inj heq
      exact hkept.hasErrors (hasErrors_of_parseFile hrefused)
    · exact ih (hrest.trans (congrArg _ (Prod.ext rfl hlater)))

theorem validate_not_mem_fileCalls (paths : List String) :
    Call.validate ∉ fileCalls read paths := by
  simp [fileCalls]

/-! ### The run -/

theorem takeAndCheck_fst (request : Request) (read : String → Except FileFault String) :
    (takeAndCheck request read).map (·.1) = after? request.config (calls request read) := by
  have hfiles := takeFiles_fst read (.start request.config) request.files
  unfold takeAndCheck after? calls
  rw [run?_append, ← hfiles]
  rcases takeFiles read (.start request.config) request.files with j | ⟨s, _ | _⟩
  · rfl
  · rfl
  · rfl

/-- **A run that comes to an end succeeds if and only if no error is in its journal.** -/
theorem takeAndCheck_verdict {s : Session} {ok : Bool}
    (h : takeAndCheck request read = .ok (s, ok)) :
    ok = true ↔ s.journal.hasErrors = false := by
  unfold takeAndCheck at h
  obtain ⟨⟨t, taken⟩, htake, h⟩ := bind_eq_ok.mp h
  cases taken with
  | false =>
    obtain ⟨rfl, rfl⟩ := Prod.mk.inj (Except.ok.inj h)
    simp [hasErrors_of_takeFiles htake]
  | true =>
    have hrun : Session.run _ (fileCalls read request.files) = t := run_of_takeFiles htake
    have hnone : t.validated = none := by
      rw [← hrun, validated_run (validate_not_mem_fileCalls _)]
      rfl
    have hcheck : t.validate = (s, ok) := Except.ok.inj h
    have hiff := hasErrors_validate_iff hnone
    rw [hcheck] at hiff
    exact hiff

/-- **The exit code is 0 if and only if no error was reported in the run**, if it comes to an end;
and it prints the warnings and errors that were. -/
theorem code_of_run {output : Output} (h : run request read = .ok output) :
    (output.code = 0 ↔ ∀ d ∈ reports request read, d.severity ≠ .error) ∧
      output.stdout = String.join ((reports request read).map diagnosticLine) := by
  unfold run at h
  obtain ⟨⟨s, ok⟩, hdone, h⟩ := bind_eq_ok.mp h
  obtain rfl : report request.files s ok = output := Except.ok.inj h
  have hreports : reports request read = s.journal.diagnostics.toList := by
    unfold reports
    rw [← takeAndCheck_fst, hdone]
    rfl
  rw [hreports, ← Journal.hasErrors_eq_false_iff, ← takeAndCheck_verdict hdone]
  refine ⟨?_, rfl⟩
  unfold report
  cases ok with
  | false => simp
  | true => simp

theorem check_of_readArgs {args : List String} (h : readArgs args = .ok request) :
    check args read = run request read := by
  unfold check
  rw [h]

theorem exitCode_error_ne_zero (j : Journal) : exitCode (.error j) ≠ 0 := by
  simp [exitCode]

/-- A run has no end just when its calls have none. -/
theorem run_eq_error_iff {j : Journal} :
    run request read = .error j ↔ after? request.config (calls request read) = .error j := by
  rw [← takeAndCheck_fst]
  unfold run
  cases takeAndCheck request read with
  | error j' => simp [Bind.bind, Except.bind, Except.map]
  | ok r => exact iff_of_false nofun nofun

/-- **Success means that no error was reported**, if there is an end. After calls that come to an
end, the first check succeeds if and only if the journal then holds no error, and each check that it
consists of ends with a flag that is set just when the check found no error. With arguments that are
accepted, a run that comes to an end exits with 0 if and only if no error was reported in it. A run
without end is aborted: so the exit code says whether an error was reported if and only if the run
comes to an end or an error was reported before. Calls have no end just when one of them brings a
declaration that has none, and this only if reading it comes to an element that is not read with any
number of levels. What is reported stays in the journal. -/
theorem success_iff_no_error (config : Config) (calls more : List Call) (p : Pass Bool)
    (args : List String) (read : String → Except FileFault String) (request : Request) :
    (∀ s, Call.validate ∉ calls → after? config calls = .ok s →
      (s.validate.2 = true ↔
        ∀ d ∈ s.validate.1.journal.diagnostics.toList, d.severity ≠ .error)) ∧
    (NestedCheck p →
      ∃ ok, p.result = .ok ok ∧ (ok = true ↔ ∀ x ∈ p.findings, x.isError = false)) ∧
    (readArgs args = .ok request →
      (∀ output, check args read = .ok output →
        (output.code = 0 ↔ ∀ d ∈ reports request read, d.severity ≠ .error) ∧
          output.stdout = String.join ((reports request read).map diagnosticLine)) ∧
      (∀ j, check args read = .error j ↔
        after? request.config (CommandLine.calls request read) = .error j) ∧
      ((exitCode (check args read) = 0 ↔ ∀ d ∈ reports request read, d.severity ≠ .error) ↔
        (∃ output, check args read = .ok output) ∨
          ∃ d ∈ reports request read, d.severity = .error)) ∧
    ((∃ j, after? config calls = .error j) ↔
      ∃ done call rest s, calls = done ++ call :: rest ∧ after? config done = .ok s ∧
        s.BringsEndless call) ∧
    (∀ t : Turn, t.Endless → ∃ pos, ∃ c ∈ t.context.known t.element, ∀ levels,
      (readField t.context levels pos c).result = .error .endless) ∧
    told? (after? config calls) <+: told? (after? config (calls ++ more)) := by
  refine ⟨fun s h hs => ?_, fun h => h.candid, fun h => ?_, exists_run?_eq_error_iff,
    fun t h => t.endlessIn_of_endless h, told?_run?_append _ calls more⟩
  · rw [← Journal.hasErrors_eq_false_iff]
    refine hasErrors_validate_iff ?_
    rw [← run?_eq_ok hs, validated_run h]
    rfl
  · rw [check_of_readArgs h]
    refine ⟨fun output => code_of_run, fun j => run_eq_error_iff, ?_⟩
    cases hrun : run request read with
    | ok output => exact iff_of_true (code_of_run hrun).1 (Or.inl ⟨output, rfl⟩)
    | error j => simp [exitCode_error_ne_zero]

/-- A schema with a property that is not known is taken with a warning. As an error, this makes the
check fail and the exit code 1. -/
theorem success_of_unknown_property :
    let text := "<schema name=\"P\" bogus=\"1\"/>"
    let args := ["--warn-as-err", "p.xml"]
    let config : Config := ⟨none, 0, none, true⟩
    let session := after config [.named "p.xml" text]
    (Call.validate ∉ [Call.named "p.xml" text] ∧
      after? config [.named "p.xml" text] = .ok session ∧ session.validate.2 = false ∧
      ¬ ∀ d ∈ session.validate.1.journal.diagnostics.toList, d.severity ≠ .error) ∧
    (∃ s : Schema, session.schema = some s ∧ ∃ ok, (s.link.1.check false).result = .ok ok ∧
      (ok = true ↔ ∀ x ∈ (s.link.1.check false).findings, x.isError = false)) ∧
    readArgs args = .ok ⟨["p.xml"], config⟩ ∧
    ∃ output, check args (fun _ => .ok text) = .ok output ∧ output.code = 1 ∧
      ¬ ∀ d ∈ reports ⟨["p.xml"], config⟩ fun _ => .ok text, d.severity ≠ .error := by
  intro text args config session
  have hcalls : Call.validate ∉ [Call.named "p.xml" text] := by simp
  have hargs : readArgs args = .ok ⟨["p.xml"], config⟩ := rfl
  have hsome : session.schema.isSome = true := by decide +kernel
  have hfail : session.validate.2 = false := by decide +kernel
  have hends : (after? config [.named "p.xml" text]).isOk = true := by decide +kernel
  have hexit : exitCode (check args fun _ => .ok text) = 1 := by decide +kernel
  obtain ⟨s, hs⟩ := Option.isSome_iff_exists.mp hsome
  have hsession : after? config [.named "p.xml" text] = .ok session := by
    cases hrun : after? config [.named "p.xml" text] with
    | error j =>
      rw [hrun] at hends
      cases hends
    | ok t => exact congrArg _ (run?_eq_ok hrun).symm
  have hsuccess := success_iff_no_error config [.named "p.xml" text] [] (s.link.1.check false) args
    (fun _ => .ok text) ⟨["p.xml"], config⟩
  refine ⟨⟨hcalls, hsession, hfail, fun hno => ?_⟩,
    ⟨s, hs, hsuccess.2.1 (.schema s.link.1 false)⟩, hargs, ?_⟩
  · have hok := (hsuccess.1 session hcalls hsession).mpr hno
    rw [hfail] at hok
    exact Bool.noConfusion hok
  · cases hout : check args fun _ => .ok text with
    | error j =>
      rw [hout] at hexit
      cases hexit
    | ok output =>
      rw [hout] at hexit
      refine ⟨output, rfl, hexit, fun hno => ?_⟩
      have hok : exitCode (.ok output) = 0 := ((hsuccess.2.2.1 hargs).1 output hout).1.mpr hno
      rw [hexit] at hok
      exact Nat.one_ne_zero hok

/-- The member `k` of `N.A.P` reuses `A.P`. Seen from `N`, where `D` takes it over, this is `N.A.P`
again. So reading `D` has no end. -/
def innerReuse : String :=
  "<schema name=\"S\">" ++
    "<ns name=\"A\"><bundle name=\"P\"><int name=\"a\" type=\"uint8\"/></bundle></ns>" ++
    "<ns name=\"N\">" ++
      "<ns name=\"A\"><bundle name=\"P\"><bundle name=\"k\" reuse=\"A.P\"/></bundle></ns>" ++
      "<bundle name=\"D\" reuse=\"A.P\"/>" ++
    "</ns>" ++
  "</schema>"

/-- The request to check a file. -/
def plainRequest : Request := ⟨["p.xml"], ⟨none, 0, none, false⟩⟩

/-- A run on `innerReuse` is aborted although nothing is reported. -/
theorem aborts_without_error :
    readArgs ["p.xml"] = .ok plainRequest ∧
      exitCode (check ["p.xml"] fun _ => .ok innerReuse) ≠ 0 ∧
      reports plainRequest (fun _ => .ok innerReuse) = [] := by
  have hargs : readArgs ["p.xml"] = .ok plainRequest := rfl
  have hsilent : (match run plainRequest fun _ => .ok innerReuse with
      | .error j => j.diagnostics.isEmpty
      | .ok _ => false) = true := by decide +kernel
  cases hrun : run plainRequest fun _ => .ok innerReuse with
  | ok output =>
    rw [hrun] at hsilent
    cases hsilent
  | error j =>
    rw [hrun] at hsilent
    refine ⟨hargs, ?_, ?_⟩
    · rw [check_of_readArgs hargs, hrun]
      exact exitCode_error_ne_zero j
    · unfold reports
      rw [run_eq_error_iff.mp hrun]
      exact Array.toList_eq_nil_iff.mpr (Array.isEmpty_iff.mp hsilent)

end WireSchema.CommandLine
