import WireSchema.Proofs.Namespace.Omission
import WireSchema.Proofs.Session.Sealing
import WireSchema.Proofs.Session.Splitting
import WireSchema.Proofs.Session.Variants

/-! # Declarations that a session rejects

A declaration that is rejected is reported, and leaves nothing else behind: the session might as
well have been given the document without it (`Session.rejected_as_if_absent`). All that comes later
then goes on alike, the linking of the schema included (`Session.Alike.run`); only what was reported
differs, and so the result of a check may. -/

namespace WireSchema

open Markup

/-! ### Documents -/

namespace Schema

variable {s : Schema} {e : Element} {before after : List Turn} {t : Turn}

/-- What a schema takes of a document is said by its properties, its platforms and the population
that it leads to. -/
theorem schema_addDocument_congr {e e' : Element}
    (hprops : e'.props properties = e.props properties)
    (hplatforms : platformElements e' = platformElements e)
    (hpopulation : (Population.add ⟨s.version, s.endian⟩ properties ⟨s.root, s.catalogue⟩
        e').population =
      (Population.add ⟨s.version, s.endian⟩ properties ⟨s.root, s.catalogue⟩ e).population) :
    (s.addDocument e').schema = (s.addDocument e).schema := by
  unfold addDocument
  rw [hprops, hplatforms]
  dsimp only
  split_ifs
  · rfl
  · rw [hpopulation]

theorem platformElements_of_omits {kind : DeclarationKind} {d : Element} {children : List Element}
    (h : Omits kind d e.children children) :
    platformElements { e with children } = platformElements e := by
  have hfilter := h.filter_eq (· == "platforms") (by decide)
    (by cases kind <;> decide)
    (fun tag htag => beq_false_of_ne fun heq => by
      rw [heq] at htag
      revert htag
      cases kind <;> decide) fun _ => true
  simp only [Bool.and_true] at hfilter
  unfold platformElements Element.childrenNamed
  rw [hfilter]

/-- **A document without a declaration that is rejected adds the same.** -/
theorem exists_omits_of_fails (h : s.turns e = before ++ t :: after) (hfails : t.Fails) :
    ∃ children, Omits t.kind t.element e.children children ∧
      s.turns { e with children } = before ++ after ∧
      (s.addDocument { e with children }).schema = (s.addDocument e).schema := by
  unfold turns at h
  split_ifs at h with hnamed
  · obtain ⟨children, hsame⟩ := Population.exists_sameWithout h hfails
    have hprops := hsame.omits.props_eq propertiesOnly_schema
    refine ⟨children, hsame.omits, ?_, ?_⟩
    · have hnamed' : s.isNamedBy { e with children } = true :=
        (isNamedBy_congr (by rw [hprops]) s).trans hnamed
      unfold turns
      rw [if_pos hnamed', hsame.turns]
    · exact schema_addDocument_congr hprops (platformElements_of_omits hsame.omits)
        (hsame.population properties)
  · exact absurd h (by simp)

end Schema

namespace Session

variable {s t : Session} {call call' : Call}

/-! ### Sessions that go on alike -/

/-- The sessions differ in what was reported, and perhaps in the result of the check. -/
structure Alike (s t : Session) : Prop where
  config : t.config = s.config
  schema : t.schema = s.schema
  checked : t.validated.isSome = s.validated.isSome

theorem SameModel.alike (h : SameModel s t) : Alike s t :=
  ⟨h.config, h.schema, congrArg Option.isSome h.validated⟩

theorem checked_perform (s : Session) (call : Call) :
    (s.perform call).validated.isSome = (call matches .validate || s.validated.isSome) := by
  by_cases hcall : call = .validate
  · subst hcall
    exact congrArg Option.isSome (validated_validate s)
  · rw [validated_perform hcall]
    cases call with
    | validate => exact absurd rfl hcall
    | listen | element | named | file => rfl

namespace Alike

variable (h : Alike s t)
include h

theorem receiver? (root : Element) : t.receiver? root = s.receiver? root := by
  unfold Session.receiver?
  rw [h.checked, h.schema]

theorem turns (call : Call) : t.turns call = s.turns call := by
  unfold Session.turns taken?
  simp only [h.receiver?]

theorem schema_runValidation : t.runValidation.1.schema = s.runValidation.1.schema := by
  unfold runValidation
  rw [h.schema, h.config]
  cases hschema : s.schema with
  | none => exact h.schema
  | some schema =>
    cases s.config.forcedVersion with
    | none => exact (schema_linkAndCheck t schema).trans (schema_linkAndCheck s schema).symm
    | some forced =>
      dsimp only
      split_ifs
      · exact h.schema
      · exact (schema_linkAndCheck t schema).trans (schema_linkAndCheck s schema).symm

/-- **A call changes both sessions alike.** -/
theorem perform (call : Call) : Alike (s.perform call) (t.perform call) := by
  refine ⟨?_, ?_, ?_⟩
  · rw [config_perform, config_perform, h.config]
  · cases hs : s.validated with
    | some result =>
      have hchecked : s.validated.isSome = true := by rw [hs]; rfl
      rw [schema_perform_of_validated hchecked,
        schema_perform_of_validated (h.checked.trans hchecked), h.schema]
    | none =>
      have ht : t.validated = none := by
        rw [← Option.isNone_iff_eq_none, ← Option.not_isSome, h.checked, hs]
        rfl
      by_cases hcall : call = .validate
      · subst hcall
        show t.validate.1.schema = s.validate.1.schema
        unfold validate
        rw [hs, ht]
        exact h.schema_runValidation
      · cases hroot : call.root? with
        | none =>
          rw [schema_perform_of_root? hroot hcall, schema_perform_of_root? hroot hcall, h.schema]
        | some root => rw [schema_perform ht hroot, schema_perform hs hroot, h.schema]
  · rw [checked_perform, checked_perform, h.checked]

/-- **Later calls find the same in both sessions**, and leave the same. -/
theorem run (calls : List Call) :
    Alike (s.run calls) (t.run calls) ∧ t.turnsOf calls = s.turnsOf calls := by
  induction calls generalizing s t with
  | nil => exact ⟨h, rfl⟩
  | cons call calls ih =>
    obtain ⟨hrun, hturns⟩ := ih (h.perform call)
    refine ⟨hrun, ?_⟩
    rw [turnsOf, turnsOf, h.turns, hturns]

end Alike

/-! ### Rejected declarations -/

/-- **A declaration that is rejected might as well be absent.** Let a call bring a document, and let
one of its declarations be rejected in its turn, at whatever depth and for whatever reason. There is
the document without this declaration, and a call that brings that one instead has the same effect,
but for the journal: all other declarations have the same turns, in which they find the same
population, and the schema with its arena, the elements for reuse and the namespaces is the same.
Later calls, too, find the same and leave the same schema. -/
theorem rejected_as_if_absent (s : Session) {call : Call} {before after : List Turn} {t : Turn}
    (h : s.turns call = before ++ t :: after) (hfails : t.Fails) :
    ∃ root children, call.root? = some root ∧ Omits t.kind t.element root.children children ∧
      ∀ call' : Call, call'.root? = some { root with children } →
        s.turns call' = before ++ after ∧ SameModel (s.perform call) (s.perform call') ∧
        ∀ later, Alike ((s.perform call).run later) ((s.perform call').run later) ∧
          (s.perform call').turnsOf later = (s.perform call).turnsOf later := by
  cases htaken : s.taken? call with
  | none =>
    rw [Session.turns, htaken] at h
    exact absurd h (by simp)
  | some p =>
    obtain ⟨schema, root⟩ := p
    obtain ⟨hroot, hreceiver⟩ := taken?_eq_some_iff.mp htaken
    rw [Session.turns, htaken, Option.elim_some] at h
    obtain ⟨children, homits, hturns, hschema⟩ := Schema.exists_omits_of_fails h hfails
    have hvalidated := validated_of_receiver? hreceiver
    have hreceiver' : s.receiver? { root with children } = some schema := by
      rw [receiver?_of_validated hvalidated] at hreceiver ⊢
      rw [← hreceiver]
      exact Schema.receiver?_congr (d := { root with children }) (e := root) rfl
        (homits.props_eq propertiesOnly_schema) s.schema
    refine ⟨root, children, hroot, homits, fun call' hroot' => ?_⟩
    have hne {c : Call} {r : Element} (hc : c.root? = some r) : c ≠ .validate := by
      rintro rfl
      cases hc
    have hsame : SameModel (s.perform call) (s.perform call') := by
      refine ⟨?_, ?_, ?_⟩
      · rw [config_perform, config_perform]
      · rw [schema_perform hvalidated hroot, schema_perform hvalidated hroot',
          ← receiver?_of_validated hvalidated, ← receiver?_of_validated hvalidated, hreceiver,
          hreceiver', Option.map_some, Option.map_some, hschema]
      · rw [validated_perform (hne hroot), validated_perform (hne hroot')]
    refine ⟨?_, hsame, hsame.alike.run⟩
    unfold Session.turns taken?
    rw [hroot', Option.bind_some, hreceiver', Option.map_some, Option.elim_some, hturns]

/-- An integer field. -/
def integer (attrs : List (String × String)) (line : Nat) : Element := ⟨"int", attrs, [], "", line⟩

/-- A bundle with a member that cannot be read. -/
def brokenBundle : Element :=
  ⟨"bundle", [("name", "B")], [⟨"members", [], [integer [("name", "X"), ("type", "uint8")] 6,
    integer [("name", "Y"), ("type", "uint9")] 7], "", 5⟩], "", 4⟩

/-- In a wrapper in a namespace, a bundle is rejected for one of its members. A field after it has
its name, and is reused. -/
def brokenDocument : Element :=
  ⟨"schema", [("name", "P")], [⟨"ns", [("name", "N")],
    [⟨"fields", [], [integer [("name", "A"), ("type", "uint8")] 3, brokenBundle,
        integer [("name", "B"), ("type", "uint16")] 8], "", 2⟩,
      integer [("name", "C"), ("reuse", "N.B")] 9], "", 1⟩], "", 0⟩

/-- Without the bundle, the other three declarations have their turns, and the last one is found as
it is with the bundle. -/
theorem rejected_of_brokenBundle : ∃ children,
    Omits .field brokenBundle brokenDocument.children children ∧
      let call := Call.element { brokenDocument with children }
      ((start ⟨none, 0, none, false⟩).turns call).map (·.element.line) = [3, 8, 9] ∧
      (after ⟨none, 0, none, false⟩ [call]).findField? "N.C" =
        (after ⟨none, 0, none, false⟩ [.element brokenDocument]).findField? "N.C" ∧
      ((after ⟨none, 0, none, false⟩ [call]).findField? "N.C").isSome = true := by
  have hturns : ((start ⟨none, 0, none, false⟩).turns (.element brokenDocument)).map
      (fun t => (t.kind, t.element)) =
        [(.field, integer [("name", "A"), ("type", "uint8")] 3), (.field, brokenBundle),
          (.field, integer [("name", "B"), ("type", "uint16")] 8),
          (.field, integer [("name", "C"), ("reuse", "N.B")] 9)] := rfl
  have hok : ((start ⟨none, 0, none, false⟩).turns (.element brokenDocument)).map
      (fun t => (t.kind.add t.setting t.population t.element).result.isOk) =
        [true, false, true, true] := by decide +kernel
  obtain ⟨first, rest, hfirst, hplain, hrest⟩ := List.map_eq_cons_iff.mp hturns
  obtain ⟨t, later, rfl, ht, hlater⟩ := List.map_eq_cons_iff.mp hrest
  obtain ⟨hkind, helement⟩ := Prod.mk.inj ht
  have hfails : t.Fails := by
    rw [hfirst] at hok
    simp only [List.map_cons, List.cons.injEq] at hok
    unfold Turn.Fails
    cases hresult : (t.kind.add t.setting t.population t.element).result with
    | error err => exact ⟨err, rfl⟩
    | ok q => simp [hresult, Except.isOk, Except.toBool] at hok
  have hsplit : (start ⟨none, 0, none, false⟩).turns (.element brokenDocument) =
      [first] ++ t :: later := hfirst
  obtain ⟨root, children, hroot, homits, hcalls⟩ :=
    rejected_as_if_absent (start ⟨none, 0, none, false⟩) hsplit hfails
  cases hroot
  rw [hkind, helement] at homits
  obtain ⟨hothers, hsame, -⟩ := hcalls (.element { brokenDocument with children }) rfl
  have hfind : (after ⟨none, 0, none, false⟩
      [.element { brokenDocument with children }]).findField? "N.C" =
        (after ⟨none, 0, none, false⟩ [.element brokenDocument]).findField? "N.C" :=
    hsame.sameAnswers.field "N.C"
  refine ⟨children, homits, ?_, hfind, ?_⟩
  · have hlines := congrArg (List.map (fun x : DeclarationKind × Element => x.2.line)) hlater
    rw [List.map_map] at hlines
    rw [hothers, List.singleton_append, List.map_cons]
    exact List.cons_eq_cons.mpr ⟨congrArg (fun x => x.2.line) hplain, hlines⟩
  · rw [hfind]
    decide +kernel

end Session

end WireSchema
