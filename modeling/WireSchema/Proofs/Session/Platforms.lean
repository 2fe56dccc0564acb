import WireSchema.Proofs.Finding.Yield
import WireSchema.Proofs.Session.Splitting
import WireSchema.Proofs.Text.Distinct

/-! # Platforms

The platforms of a document are read up to the first element that cannot be read
(`exists_addPlatforms_eq`). What is declared after it is lost, and it is the only one that is
reported (`platforms_end_at_first_fault`); a reader that went on would have `declaredPlatforms` and
report `platformFaults`. -/

namespace WireSchema

open Markup

namespace Schema

variable {s : Schema} {e : Element} {es before later : List Element} {known names : List String}
  {name : String}

/-- The name of a platform, if the element has a valid one. -/
def platformName? (e : Element) : Option String :=
  ((e.props []).required "name").toOption.filter Literal.isName

/-- The platforms that are known and those that the elements name, each once, in the order in which
they are declared first. -/
def declaredPlatforms (known : List String) (es : List Element) : List String :=
  (known ++ es.filterMap platformName?).eraseDups

/-- What is wrong with the elements that declare no platform, each of them looked at. -/
def platformFaults (known : List String) : List Element → List SchemaError
  | [] => []
  | e :: es =>
    match readPlatform known e with
    | .error err => err :: platformFaults known es
    | .ok name => platformFaults (known ++ [name]) es

/-- The elements name the platforms, all of which are new. -/
structure Declare (known : List String) (es : List Element) (names : List String) : Prop where
  named : es.map platformName? = names.map some
  nodup : (known ++ names).Nodup

/-! ### Reading platforms -/

theorem readPlatform_eq_ok_iff :
    readPlatform known e = .ok name ↔ platformName? e = some name ∧ name ∉ known := by
  unfold readPlatform platformName?
  rw [Option.filter_eq_some_iff, toOption_eq_some]
  constructor
  · intro h
    obtain ⟨n, hn, h⟩ := bind_eq_ok.mp h
    obtain ⟨_, hvalid, h⟩ := bind_eq_ok.mp h
    split_ifs at h with hknown
    · cases h
    · cases h
      exact ⟨⟨hn, checkName_eq_ok.mp hvalid⟩, by simpa using hknown⟩
  · rintro ⟨⟨hn, hvalid⟩, hnew⟩
    refine bind_eq_ok.mpr ⟨name, hn, bind_eq_ok.mpr ⟨(), checkName_eq_ok.mpr hvalid, ?_⟩⟩
    rw [if_neg (by simpa using hnew)]
    rfl

theorem addPlatforms_snd (known : List String) (es : List Element) :
    (addPlatforms known es).2 = (platformFaults known es).head? := by
  induction es generalizing known with
  | nil => rfl
  | cons e es ih =>
    unfold addPlatforms platformFaults
    cases readPlatform known e with
    | error err => rfl
    | ok name => exact ih _

theorem platformFaults_of_declare (h : Declare known before names) (later : List Element) :
    platformFaults known (before ++ later) = platformFaults (known ++ names) later := by
  induction before generalizing known names with
  | nil =>
    obtain rfl : names = [] := by simpa using h.named.symm
    simp
  | cons e es ih =>
    cases names with
    | nil => simpa using h.named
    | cons n ns =>
      obtain ⟨hname, hrest⟩ := List.cons_eq_cons.mp h.named
      have hnodup : (known ++ [n] ++ ns).Nodup := by simpa using h.nodup
      have hread : readPlatform known e = .ok n :=
        readPlatform_eq_ok_iff.mpr ⟨hname, fun hn => by
          have := (List.nodup_append.mp h.nodup).2.2 n hn n List.mem_cons_self
          exact this rfl⟩
      rw [List.cons_append, platformFaults, hread]
      dsimp only
      rw [ih ⟨hrest, hnodup⟩]
      simp

/-- **Platforms are read up to the first element that cannot be read.** -/
theorem exists_addPlatforms_eq (hknown : known.Nodup) (es : List Element) :
    ∃ before later names, es = before ++ later ∧ Declare known before names ∧
      (addPlatforms known es).1 = known ++ names ∧
      ∀ e ∈ later.head?, ∃ err, readPlatform (known ++ names) e = .error err := by
  induction es generalizing known with
  | nil => exact ⟨[], [], [], rfl, ⟨rfl, by simpa using hknown⟩, by simp [addPlatforms], by simp⟩
  | cons e es ih =>
    cases hread : readPlatform known e with
    | error err =>
      refine ⟨[], e :: es, [], rfl, ⟨rfl, by simpa using hknown⟩, by simp [addPlatforms, hread], ?_⟩
      rintro _ ⟨⟩
      exact ⟨err, by simpa using hread⟩
    | ok n =>
      obtain ⟨hname, hnew⟩ := readPlatform_eq_ok_iff.mp hread
      have hnodup : (known ++ [n]).Nodup :=
        hknown.append (List.nodup_singleton n) (by simpa using hnew)
      obtain ⟨before, later, names, rfl, hdeclare, hadd, hlater⟩ := ih hnodup
      refine ⟨e :: before, later, n :: names, rfl, ⟨?_, by simpa using hdeclare.nodup⟩, ?_,
        by simpa using hlater⟩
      · rw [List.map_cons, List.map_cons, hname, hdeclare.named]
      · simpa [addPlatforms, hread] using hadd

theorem nodup_addPlatforms (hknown : known.Nodup) (es : List Element) :
    (addPlatforms known es).1.Nodup := by
  obtain ⟨before, later, names, rfl, hdeclare, hadd, -⟩ := exists_addPlatforms_eq hknown es
  rw [hadd]
  exact hdeclare.nodup

/-- Nothing that is declared is lost if and only if all names after the first element that cannot be
read are known without them. -/
theorem eq_declaredPlatforms_iff (h : Declare known before names) (later : List Element) :
    known ++ names = declaredPlatforms known (before ++ later) ↔
      ∀ e ∈ later, ∀ n ∈ platformName? e, n ∈ known ++ names := by
  have hbefore : before.filterMap platformName? = names := by
    have hall := congrArg (List.filterMap fun n => n) h.named
    simpa [List.filterMap_map, Function.comp_def] using hall
  unfold declaredPlatforms
  rw [List.filterMap_append, hbefore, ← List.append_assoc, List.eraseDups_append,
    eraseDups_of_nodup h.nodup, List.self_eq_append_right]
  have hnil (ns : List String) : ns.eraseDups = [] ↔ ns = [] := by
    cases ns <;> simp [List.eraseDups_cons]
  rw [hnil, List.removeAll, List.filter_eq_nil_iff]
  simp only [List.mem_filterMap, Bool.not_eq_true, Bool.not_eq_false', List.elem_eq_mem,
    decide_eq_true_eq]
  constructor
  · exact fun hall e he n hn => hall n ⟨e, he, hn⟩
  · rintro hall n ⟨e, he, hn⟩
    exact hall e he n hn

/-! ### Documents -/

theorem addDocument_platforms (h : s.isNamedBy e = true) :
    (s.addDocument e).schema.platforms = (addPlatforms s.platforms (platformElements e)).1 ∧
    (s.addDocument e).findings =
      ((platformFaults s.platforms (platformElements e)).take 1).map
        (fun err => ⟨e.line, .error err⟩) ++
      (Population.add ⟨s.version, s.endian⟩ properties ⟨s.root, s.catalogue⟩ e).findings := by
  have hfirst := addPlatforms_snd s.platforms (platformElements e)
  unfold addDocument
  dsimp only
  split_ifs with hnot
  · change (!s.isNamedBy e) = true at hnot
    simp [h] at hnot
  · refine ⟨rfl, ?_⟩
    rw [hfirst, List.take_one]
    cases (platformFaults s.platforms (platformElements e)).head? <;> rfl

theorem platforms_of_read (h : (Schema.read e).result = .ok s) : s.platforms = [] := by
  have hyields : (Schema.read e).Yields fun s => s.platforms = [] := by
    unfold Schema.read
    iterate 9 refine Pass.yields_bind fun _ => ?_
    exact Pass.yields_pure rfl
  exact hyields s h

theorem Built.nodup_platforms (h : s.Built) : s.platforms.Nodup := by
  induction h with
  | read h =>
    rw [platforms_of_read h]
    exact List.nodup_nil
  | @add s e _ ih =>
    cases hnamed : s.isNamedBy e with
    | true =>
      rw [(addDocument_platforms hnamed).1]
      exact nodup_addPlatforms ih _
    | false =>
      rw [addDocument_of_not_isNamedBy hnamed]
      exact ih

end Schema

/-! ### Runs -/

namespace Session

open Schema

variable {schema : Schema} {root : Element}

/-- A document with platforms; an empty name stands for one that is missing. -/
def platformDocument (names : List String) : Element :=
  ⟨"schema", [("name", "P")],
    [⟨"platforms", [], names.map fun n =>
      ⟨"platform", if n.isEmpty then [] else [("name", n)], [], "", 3⟩, "", 2⟩], "", 1⟩

/-- The platforms after a document with them, and what is reported. -/
def platformsOf (names : List String) : Option (List String) × List (Nat × String) :=
  let s := after ⟨none, 0, none, false⟩ [.element (platformDocument names)]
  (s.schema.map (·.platforms), s.journal.diagnostics.toList.map told)

/-- **The platforms of a document end at the first fault.** Let a document be taken by a schema whose
name it has. The schema after it has the platforms that it had before and those that the elements of
the document name up to the first one that names no new platform, each once and in this order. What
is wrong with this element is reported at the line of the document, and nothing that is wrong with
those after it. So no platform is lost if and only if the schema has the names of all elements after
the first fault without them, and each fault is reported if and only if there is one at most. -/
theorem platforms_end_at_first_fault (config : Config) (calls : List Call) (call : Call)
    (h : (after config calls).taken? call = some (schema, root))
    (hnamed : schema.isNamedBy root = true) :
    ∃ (s : Schema) (before later : List Element) (names : List String),
      (after config (calls ++ [call])).schema = some s ∧
      platformElements root = before ++ later ∧
      Declare schema.platforms before names ∧
      s.platforms = schema.platforms ++ names ∧
      (∀ e ∈ later.head?, ∃ err, readPlatform s.platforms e = .error err) ∧
      (s.platforms = declaredPlatforms schema.platforms (platformElements root) ↔
        ∀ e ∈ later, ∀ n ∈ platformName? e, n ∈ s.platforms) ∧
      platformFaults schema.platforms (platformElements root) =
        platformFaults s.platforms later ∧
      (reported (after config calls) (after config (calls ++ [call]))).map told =
        ((after config calls).readFindings root ++
          (((platformFaults s.platforms later).take 1).map
            (fun err => (⟨root.line, .error err⟩ : Finding)) ++
          (Population.add ⟨schema.version, schema.endian⟩ properties
            ⟨schema.root, schema.catalogue⟩ root).findings)).map
          fun x : Finding => (x.line, x.message) := by
  obtain ⟨hroot, hreceiver⟩ := taken?_eq_some_iff.mp h
  have hvalidated := validated_of_receiver? hreceiver
  have hrun : after config (calls ++ [call]) = (after config calls).perform call :=
    run_append _ _ _
  have hschema : (after config (calls ++ [call])).schema =
      some (schema.addDocument root).schema := by
    rw [hrun, schema_perform hvalidated hroot, ← receiver?_of_validated hvalidated, hreceiver]
    rfl
  have hknown : schema.platforms.Nodup :=
    (built_of_receiver? (reachable_after config calls) hreceiver).nodup_platforms
  obtain ⟨hplatforms, hfindings⟩ := addDocument_platforms hnamed
  obtain ⟨before, later, names, helements, hdeclare, hadd, hlater⟩ :=
    exists_addPlatforms_eq hknown (platformElements root)
  have hnames : (schema.addDocument root).schema.platforms = schema.platforms ++ names :=
    hplatforms.trans hadd
  have hfaults : platformFaults schema.platforms (platformElements root) =
      platformFaults (schema.addDocument root).schema.platforms later := by
    rw [helements, hnames]
    exact platformFaults_of_declare hdeclare later
  refine ⟨_, before, later, names, hschema, helements, hdeclare, hnames, ?_, ?_, hfaults, ?_⟩
  · rw [hnames]
    exact hlater
  · rw [hnames, helements]
    exact eq_declaredPlatforms_iff hdeclare later
  · obtain ⟨source, hreported⟩ := reported_perform h
    rw [hrun, hreported, hfindings, hfaults, List.map_map]
    exact List.map_congr_left fun x _ => told_entry _ x

/-- A second document with a platform that is not valid: the name after it is known from the first
document, and so none is lost. -/
theorem platforms_of_laterDocument :
    let first := platformDocument ["arm"]
    let second := platformDocument ["mips", "1", "arm"]
    let config : Config := ⟨none, 0, none, false⟩
    ∃ (schema s : Schema) (before later : List Element),
      (after config [.element first]).taken? (.element second) = some (schema, second) ∧
      schema.isNamedBy second = true ∧
      (after config [.element first, .element second]).schema = some s ∧
      platformElements second = before ++ later ∧ s.platforms = ["arm", "mips"] ∧
      ∀ e ∈ later, ∀ n ∈ platformName? e, n ∈ s.platforms := by
  intro first second config
  obtain ⟨schema, htaken, hnamed, hplatforms⟩ : ∃ schema : Schema,
      (after config [.element first]).taken? (.element second) = some (schema, second) ∧
        schema.isNamedBy second = true ∧ schema.platforms = ["arm"] := ⟨_, rfl, rfl, rfl⟩
  obtain ⟨s, before, later, names, hs, helements, -, -, -, hkept, -⟩ :=
    platforms_end_at_first_fault config [.element first] (.element second) htaken hnamed
  have hall : s.platforms = ["arm", "mips"] := by
    have hcomputed : ((after config [.element first, .element second]).schema.map Schema.platforms) =
        some ["arm", "mips"] := by decide +kernel
    exact Option.some.inj ((congrArg (Option.map Schema.platforms) hs).symm.trans hcomputed)
  refine ⟨schema, s, before, later, htaken, hnamed, hs, helements, hall, hkept.mp ?_⟩
  rw [hall, hplatforms]
  decide +kernel

/-- A platform without a name hides the one after it, and so does one that is repeated; of several
faults one is reported. -/
theorem platforms_after_namelessPlatform :
    declaredPlatforms [] (platformElements (platformDocument ["", "arm"])) = ["arm"] ∧
    platformsOf ["", "arm"] = (some [], [(1, "missing required property \"name\"")]) ∧
    platformsOf ["mips", "mips", "1", "arm"] =
      (some ["mips"], [(1, "platform \"mips\" has already been defined")]) := by
  decide +kernel

end Session

end WireSchema
