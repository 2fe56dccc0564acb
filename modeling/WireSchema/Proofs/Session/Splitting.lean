import WireSchema.Proofs.Session.Documents

/-! # Splitting what a session is given

Before the check, the schema of a session is what the documents of its calls build
(`Session.schema_run`). If they are split, or the namespaces in them, every path leads to the same
declaration, and the same declarations are refused because their name is taken
(`Session.splitting_keeps_declarations`). -/

namespace WireSchema.Session

open Markup

variable {s : Session} {root : Element} {call : Call} {calls calls' : List Call}

/-! ### The turns of calls -/

/-- The turns of all declarations of a call. -/
def turns (s : Session) (call : Call) : List Turn := (s.taken? call).elim [] fun p => p.1.turns p.2

/-- The turns of all declarations of the calls. -/
def turnsOf (s : Session) : List Call → List Turn
  | [] => []
  | call :: calls => s.turns call ++ (s.perform call).turnsOf calls

/-- The documents of the calls. -/
def roots (calls : List Call) : List Element := calls.filterMap Call.root?

/-- The session reports that the name of the declaration is taken. -/
def ReportsRefusal (s : Session) (t : Turn) : Prop :=
  ∃ d, (t.kind.read t.context t.element).result = .ok d ∧
    s.Reports t.element.line (t.kind.refusal t.population.scope.externalRef d)

theorem ReportsRefusal.keeps {t : Turn} {later : Session} (h : s.ReportsRefusal t)
    (hkeeps : Keeps s later) : later.ReportsRefusal t := by
  obtain ⟨d, hd, hreports⟩ := h
  exact ⟨d, hd, hreports.keeps hkeeps⟩

/-! ### One call -/

theorem receiver?_of_validated (h : s.validated = none) (root : Element) :
    s.receiver? root = Schema.receiver? s.schema root := by
  unfold receiver? Schema.receiver?
  rw [h]
  cases s.schema <;> rfl

/-- A document is added to the schema that receives it. -/
theorem schema_parseElement (h : s.validated = none) (root : Element) :
    (s.parseElement root).1.schema =
      (Schema.receiver? s.schema root).map fun schema => (schema.addDocument root).schema := by
  unfold parseElement Schema.receiver?
  rw [h]
  dsimp only
  cases hschema : s.schema with
  | some schema => rfl
  | none =>
    cases hread : (Schema.read root).result with
    | error err => exact hschema
    | ok schema => rfl

theorem schema_perform (h : s.validated = none) (hroot : call.root? = some root) :
    (s.perform call).schema =
      (Schema.receiver? s.schema root).map fun schema => (schema.addDocument root).schema := by
  obtain ⟨journal, hperform⟩ := exists_perform_eq (s := s) hroot
  have hsame : ({ s with journal } : Session).validated = none := h
  rw [hperform, schema_parseElement hsame]

/-- **A call reports the declarations that it refuses for their name.** -/
theorem reportsRefusal_perform (hs : s.Reachable) {t : Turn} (ht : t ∈ s.turns call)
    (hrepeat : t.isRepeat = true) : (s.perform call).ReportsRefusal t := by
  unfold turns at ht
  cases htaken : s.taken? call with
  | none =>
    rw [htaken] at ht
    exact absurd ht List.not_mem_nil
  | some p =>
    rw [htaken, Option.elim_some] at ht
    obtain ⟨schema, root⟩ := p
    obtain ⟨hroot, hreceiver⟩ := taken?_eq_some_iff.mp htaken
    obtain ⟨d, hd, hmem⟩ :=
      Schema.refused_addDocument (built_of_receiver? hs hreceiver).arranged ht hrepeat
    obtain ⟨journal, hperform⟩ := exists_perform_eq (s := s) hroot
    have hsame : ({ s with journal } : Session).receiver? root = some schema := hreceiver
    obtain ⟨-, t', ht'⟩ := parseElement_of_receiver? hsame
    rw [hperform, ht']
    exact ⟨d, hd, reports_addTo hmem⟩

/-! ### Runs -/

/-- **Before the check, the schema is what the documents build**, and the turns are theirs. -/
theorem schema_run (hcalls : ∀ call ∈ calls, call ≠ .validate) (h : s.validated = none) :
    (s.run calls).schema = Schema.build s.schema (roots calls) ∧
      s.turnsOf calls = Schema.turnsOf s.schema (roots calls) := by
  induction calls generalizing s with
  | nil => exact ⟨rfl, rfl⟩
  | cons call calls ih =>
    obtain ⟨hcall, hrest⟩ := List.forall_mem_cons.mp hcalls
    obtain ⟨hschema, hturns⟩ := ih hrest ((validated_perform hcall).trans h)
    have hrun : s.run (call :: calls) = (s.perform call).run calls := rfl
    rw [hrun, hschema, turnsOf, hturns, turns, taken?]
    cases hroot : call.root? with
    | none =>
      have hroots : roots (call :: calls) = roots calls := List.filterMap_cons_none hroot
      rw [hroots, schema_perform_of_root? hroot hcall]
      exact ⟨rfl, rfl⟩
    | some root =>
      have hroots : roots (call :: calls) = root :: roots calls := List.filterMap_cons_some hroot
      rw [hroots, schema_perform h hroot, Option.bind_some, receiver?_of_validated h]
      refine ⟨rfl, ?_⟩
      rw [Schema.turnsOf]
      cases Schema.receiver? s.schema root <;> rfl

theorem reportsRefusal_run (hs : s.Reachable) {t : Turn} (ht : t ∈ s.turnsOf calls)
    (hrepeat : t.isRepeat = true) : (s.run calls).ReportsRefusal t := by
  induction calls generalizing s with
  | nil => exact absurd ht List.not_mem_nil
  | cons call calls ih =>
    rcases List.mem_append.mp ht with ht | ht
    · exact (reportsRefusal_perform hs ht hrepeat).keeps (keeps_run _ calls)
    · exact ih (hs.perform call) ht

/-- The declarations of the calls that are refused because their name is taken, with the names that
lead to their namespaces. -/
def repeats (s : Session) (calls : List Call) : List (List String × DeclarationKind × Element) :=
  Turn.repeats (s.turnsOf calls)

/-- **In the same trees a path leads to the same declaration.** -/
theorem find_of_sameTree {s s' : Session} (h : Option.Rel (fun schema schema' =>
      Namespace.SameTree schema.arena schema'.arena schema.root schema'.root) s.schema s'.schema)
    (path : String) : s'.findField? path = s.findField? path ∧
      s'.findInterface? path = s.findInterface? path ∧
      s'.findMessage? path = s.findMessage? path ∧ s'.findFrame? path = s.findFrame? path := by
  unfold findField? findFieldId? field? findInterface? findMessage? findFrame?
  generalize s.schema = x at h
  generalize s'.schema = x' at h
  cases h with
  | none => exact ⟨rfl, rfl, rfl, rfl⟩
  | some h =>
    exact ⟨h.findField? path, h.findInterface? path, h.findMessage? path, h.findFrame? path⟩

/-- **Splitting keeps what is declared and what is refused.** Let there be no reuse in the documents
of some calls, and let other calls bring the documents after they were split, or namespaces at any
depth in them. Then, before the check, both sessions have the same tree of namespaces, up to the
places of fields in the arena, and every path leads to the same declaration. The same declarations
are refused because their name is taken in their namespace, and both sessions report this. -/
theorem splitting_keeps_declarations (config : Config) (calls calls' : List Call)
    (hcalls : ∀ call ∈ calls, call ≠ .validate) (hcalls' : ∀ call ∈ calls', call ≠ .validate)
    (hfree : ∀ e ∈ roots calls, e.ReuseFree) (h : DocumentSplits (roots calls) (roots calls')) :
    Option.Rel (fun schema schema' =>
        Namespace.SameTree schema.arena schema'.arena schema.root schema'.root)
      (after config calls).schema (after config calls').schema ∧
    (∀ path, (after config calls').findField? path = (after config calls).findField? path ∧
      (after config calls').findInterface? path = (after config calls).findInterface? path ∧
      (after config calls').findMessage? path = (after config calls).findMessage? path ∧
      (after config calls').findFrame? path = (after config calls).findFrame? path) ∧
    ((start config).repeats calls').Perm ((start config).repeats calls) ∧
    (∀ t ∈ (start config).turnsOf calls, t.isRepeat = true →
      (after config calls).ReportsRefusal t) ∧
    (∀ t ∈ (start config).turnsOf calls', t.isRepeat = true →
      (after config calls').ReportsRefusal t) := by
  obtain ⟨hschema, hturns⟩ := schema_run (s := start config) hcalls rfl
  obtain ⟨hschema', hturns'⟩ := schema_run (s := start config) hcalls' rfl
  obtain ⟨htree, hrepeats⟩ := h.build hfree
  have htree : Option.Rel (fun schema schema' =>
        Namespace.SameTree schema.arena schema'.arena schema.root schema'.root)
      (after config calls).schema (after config calls').schema := by
    unfold after
    rw [hschema, hschema']
    exact htree
  refine ⟨htree, find_of_sameTree htree, ?_,
    fun t ht hrepeat => reportsRefusal_run (reachable_start config) ht hrepeat,
    fun t ht hrepeat => reportsRefusal_run (reachable_start config) ht hrepeat⟩
  unfold repeats
  rw [hturns, hturns']
  exact hrepeats

/-! ### Halves -/

/-- A document with namespaces. -/
def documentWith (namespaces : List Element) : Element :=
  ⟨"schema", [("name", "P")], namespaces, "", 1⟩

/-- A namespace of the document. -/
def outerNamespace (children : List Element) : Element := ⟨"ns", [("name", "N")], children, "", 2⟩

/-- A field of the namespace. -/
def plainField : Element := ⟨"int", [("name", "A"), ("type", "uint8")], [], "", 3⟩

/-- Fields in a wrapper; the name of one of them is taken. -/
def wrappedFields : Element :=
  ⟨"fields", [], [⟨"int", [("name", "B"), ("type", "uint8")], [], "", 5⟩,
    ⟨"int", [("name", "A"), ("type", "uint16")], [], "", 6⟩], "", 4⟩

/-- A namespace in the namespace. -/
def innerNamespace (children : List Element) : Element := ⟨"ns", [("name", "M")], children, "", 7⟩

/-- A field of the inner namespace. -/
def innerField : Element := ⟨"int", [("name", "C"), ("type", "uint8")], [], "", 8⟩

/-- A field that has no name. -/
def namelessField : Element := ⟨"int", [("type", "uint8")], [], "", 9⟩

/-- A namespace with another one in it. -/
def wholeDocument : Element :=
  documentWith [outerNamespace
    [plainField, wrappedFields, innerNamespace [innerField, namelessField]]]

/-- The first halves of the two namespaces. -/
def firstHalf : Element := documentWith [outerNamespace [plainField, innerNamespace [innerField]]]

/-- The second halves of the two namespaces. -/
def secondHalf : Element :=
  documentWith [outerNamespace [wrappedFields, innerNamespace [namelessField]]]

theorem reuseFree_wholeDocument : wholeDocument.ReuseFree := by
  have leaf {e : Element} (hown : (e.props ["reuse"]).single "reuse" = .ok none)
      (hchildren : e.children = []) : e.ReuseFree :=
    .mk hown fun c hc => absurd (hchildren ▸ hc) List.not_mem_nil
  refine .mk rfl (List.forall_mem_singleton.mpr (.mk rfl ?_))
  refine List.forall_mem_cons.mpr ⟨leaf rfl rfl, List.forall_mem_cons.mpr ⟨.mk rfl ?_,
    List.forall_mem_singleton.mpr (.mk rfl ?_)⟩⟩
  · exact List.forall_mem_cons.mpr ⟨leaf rfl rfl, List.forall_mem_singleton.mpr (leaf rfl rfl)⟩
  · exact List.forall_mem_cons.mpr ⟨leaf rfl rfl, List.forall_mem_singleton.mpr (leaf rfl rfl)⟩

theorem splits_wholeDocument : DocumentSplits [wholeDocument] [firstHalf, secondHalf] := by
  have both {P : Element → Prop} {c d : Element} (hc : P c) (hd : P d) : ∀ x ∈ [c, d], P x :=
    List.forall_mem_cons.mpr ⟨hc, List.forall_mem_singleton.mpr hd⟩
  have hinner : Splits [innerNamespace [innerField, namelessField]]
      [innerNamespace [innerField], innerNamespace [namelessField]] :=
    .parts rfl ⟨by simp, both rfl rfl, both rfl rfl, both rfl rfl, rfl⟩
  -- the wrapper stands between the field and the inner namespace
  have hmoved : Splits [wrappedFields, innerNamespace [innerField]]
      [innerNamespace [innerField], wrappedFields] :=
    .swap ⟨Or.inr rfl, fun h => by simp [wrappedFields] at h⟩
  have hchildren : Splits [plainField, wrappedFields, innerNamespace [innerField, namelessField]]
      [plainField, innerNamespace [innerField], wrappedFields, innerNamespace [namelessField]] :=
    (hinner.around [plainField, wrappedFields] []).trans
      (hmoved.around [plainField] [innerNamespace [namelessField]])
  have hinside : Splits wholeDocument.children [outerNamespace [plainField,
      innerNamespace [innerField], wrappedFields, innerNamespace [namelessField]]] :=
    Splits.inside (e := outerNamespace _) rfl hchildren
  have houter : Splits wholeDocument.children (firstHalf.children ++ secondHalf.children) :=
    hinside.trans (.parts rfl ⟨by simp [firstHalf, documentWith], both rfl rfl, both rfl rfl,
      both rfl rfl, rfl⟩)
  exact (DocumentSplits.inside houter).trans
    (.parts ⟨by simp, both rfl rfl, both rfl rfl, both rfl rfl, rfl⟩)

/-- A document and its halves have the same field in the inner namespace, and the wrapped field is
refused. -/
theorem splitting_of_wholeDocument :
    (after ⟨none, 0, none, false⟩ [.element firstHalf, .element secondHalf]).findField? "N.M.C" =
      (after ⟨none, 0, none, false⟩ [.element wholeDocument]).findField? "N.M.C" ∧
    ((after ⟨none, 0, none, false⟩ [.element wholeDocument]).findField? "N.M.C").isSome = true ∧
    ((start ⟨none, 0, none, false⟩).repeats [.element firstHalf, .element secondHalf]).Perm
      ((start ⟨none, 0, none, false⟩).repeats [.element wholeDocument]) ∧
    ((start ⟨none, 0, none, false⟩).repeats [.element wholeDocument]).map
      (fun x => (x.1, x.2.1, x.2.2.line)) = [(["N"], .field, 6)] := by
  have hsame := splitting_keeps_declarations ⟨none, 0, none, false⟩ [.element wholeDocument]
    [.element firstHalf, .element secondHalf] (by simp) (by simp)
    (List.forall_mem_singleton.mpr reuseFree_wholeDocument) splits_wholeDocument
  obtain ⟨-, hfind, hrepeats, -⟩ := hsame
  exact ⟨(hfind "N.M.C").1, by decide +kernel, hrepeats, by decide +kernel⟩

end WireSchema.Session
