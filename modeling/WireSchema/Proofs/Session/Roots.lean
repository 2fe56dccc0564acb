import WireSchema.Proofs.Session.Run
import WireSchema.Proofs.Session.Verdict

/-! # The root element of a document

The root of each document should have the tag `schema`. The tag is looked at when a document is read
as the first one. A later document is added whatever the tag of its root is: with another tag it
adds the same, and only the texts of warnings are different (`Schema.addDocument_withTag`). So the
tag decides about the first document, and not about those that follow (`root_tag_decides_first`). -/

namespace WireSchema

open Markup

/-- The element with another tag. -/
def Markup.Element.withTag (e : Element) (tag : String) : Element := { e with tag }

/-- The line of the finding, and whether it is an error. -/
def Finding.grade (x : Finding) : Nat × Bool := (x.line, x.isError)

/-! ### Adding the content -/

/-- The growths differ at most in what their findings say. -/
structure Growth.SameBut (g h : Growth) : Prop where
  population : g.population = h.population
  ok : g.ok = h.ok
  findings : g.findings.map Finding.grade = h.findings.map Finding.grade

namespace Growth.SameBut

theorem rfl (g : Growth) : g.SameBut g := ⟨Eq.refl _, Eq.refl _, Eq.refl _⟩

theorem andThen {g h : Growth} {step step' : Population → Growth} (hgh : g.SameBut h)
    (hstep : ∀ p, (step p).SameBut (step' p)) : (g.andThen step).SameBut (h.andThen step') := by
  have hlast := hstep g.population
  rw [Growth.andThen, Growth.andThen, ← hgh.population]
  refine ⟨hlast.population, ?_, ?_⟩
  · rw [hgh.ok, hlast.ok]
  · rw [List.map_append, List.map_append, hgh.findings, hlast.findings]

end Growth.SameBut

namespace Population

variable (setting : Setting) (properties : List String) (p : Population) (e : Element)
  (tag : String)

/-- The tag of an element is only in the warnings about its children. -/
theorem addOwn_withTag :
    (addOwn setting properties (e.withTag tag) p).SameBut (addOwn setting properties e p) := by
  refine (Growth.SameBut.rfl _).andThen fun p => (Growth.SameBut.rfl _).andThen fun p => ?_
  refine (Growth.SameBut.rfl _).andThen fun p => (Growth.SameBut.rfl _).andThen fun p => ?_
  refine ⟨rfl, rfl, ?_⟩
  simp only [Growth.warnings, unknownChildren, List.map_map]
  rfl

theorem add_withTag :
    (add setting properties p (e.withTag tag)).SameBut (add setting properties p e) := by
  obtain ⟨_, attrs, children, text, line⟩ := e
  rw [Element.withTag, add, add]
  exact (Growth.SameBut.rfl _).andThen fun p => addOwn_withTag _ _ p _ tag

end Population

namespace Schema

variable {s : Schema} {e : Element}

/-- **The content of a document is added whatever the tag of its root is.** -/
theorem addDocument_withTag (s : Schema) (e : Element) (tag : String) :
    (s.addDocument (e.withTag tag)).schema = (s.addDocument e).schema ∧
      (s.addDocument (e.withTag tag)).ok = (s.addDocument e).ok ∧
      (s.addDocument (e.withTag tag)).findings.map Finding.grade =
        (s.addDocument e).findings.map Finding.grade := by
  have hprops : (e.withTag tag).props properties = e.props properties := rfl
  have hplatforms : platformElements (e.withTag tag) = platformElements e := rfl
  have hadd :=
    Population.add_withTag ⟨s.version, s.endian⟩ properties ⟨s.root, s.catalogue⟩ e tag
  unfold addDocument
  rw [hprops, hplatforms]
  dsimp only
  split_ifs
  · exact ⟨rfl, rfl, rfl⟩
  · refine ⟨?_, ?_, ?_⟩
    · rw [hadd.population]
    · rw [hadd.ok]
    · rw [List.map_append, List.map_append, hadd.findings]
      rfl

/-- A root with another tag is not read as a schema. -/
theorem read_of_tag_ne (h : e.tag ≠ "schema") :
    (read e).result = .error (.error (.notSchema e.tag)) ∧ (read e).findings = [] := by
  have hrequire : Pass.require (e.tag == "schema") (.notSchema e.tag) =
      Pass.fail (.notSchema e.tag) := by
    simp [Pass.require, h]
  unfold read
  rw [hrequire]
  exact ⟨rfl, rfl⟩

end Schema

/-! ### Sessions -/

namespace Session

variable {s : Session} {schema : Schema} {root : Element}

/-- The document is not taken: there is no success, an error is reported, and the schema is as it
was before. -/
structure Refuses (s : Session) (root : Element) : Prop where
  verdict : (s.parseElement root).2 = false
  error : ¬ NoError s (s.parseElement root).1
  schema : (s.parseElement root).1.schema = s.schema

/-- What the diagnostic is but for its text. -/
def place (d : Diagnostic) : Severity × String × Nat := (d.severity, d.source, d.line)

theorem refuses_of_refuse {line : Nat} {failure : Failure}
    (h : s.parseElement root = s.refuse line failure) : s.Refuses root := by
  refine ⟨by rw [h]; rfl, ?_, by rw [h]; rfl⟩
  rw [h]
  exact not_noError_of_isError rfl (List.mem_singleton_self _) (failure.isError_cause line)

/-- After the check, each document is refused. -/
theorem parseElement_of_validated (h : s.validated.isSome = true) :
    s.parseElement root = s.refuse root.line (.error .documentAfterValidation) :=
  if_pos h

/-- **A first document is refused if its root has another tag.** -/
theorem parseElement_of_tag_ne (hvalidated : s.validated = none) (hschema : s.schema = none)
    (htag : root.tag ≠ "schema") :
    s.parseElement root = s.refuse root.line (.error (.notSchema root.tag)) := by
  obtain ⟨hresult, hfindings⟩ := Schema.read_of_tag_ne htag
  unfold parseElement
  rw [hvalidated, hschema]
  dsimp only
  rw [hresult, hfindings]
  rfl

theorem parseElement_of_schema (hvalidated : s.validated = none)
    (hschema : s.schema = some schema) : s.parseElement root = s.addTo schema root := by
  unfold parseElement
  rw [hvalidated, hschema]
  rfl

theorem map_place_entry {j : Journal} {fs gs : List Finding}
    (h : fs.map Finding.grade = gs.map Finding.grade) :
    (fs.map j.entry).map place = (gs.map j.entry).map place := by
  let ofGrade (g : Nat × Bool) : Severity × String × Nat :=
    (j.promote (if g.2 then .error else .warning), j.source, g.1)
  have hgrade (xs : List Finding) :
      (xs.map j.entry).map place = (xs.map Finding.grade).map ofGrade := by
    rw [List.map_map, List.map_map]
    rfl
  rw [hgrade, hgrade, h]

theorem noError_congr {after after' : Session}
    (h : (reported s after).map place = (reported s after').map place) :
    NoError s after ↔ NoError s after' := by
  have hplace (t : Session) : NoError s t ↔ ∀ q ∈ (reported s t).map place, q.1 ≠ .error := by
    rw [List.forall_mem_map]
    exact Iff.rfl
  rw [hplace, hplace, h]

/-- **The tag of the root decides about the first document only.** In whatever state a session is, a
document with another tag is refused if the session has no schema yet, or was checked. If it has a
schema, the document is taken as one with the right tag would be: the verdict and the schema are the
same, and so is what is reported, but for its texts. So it is refused only if that one is. -/
theorem root_tag_decides_first (s : Session) (root : Element) (htag : root.tag ≠ "schema") :
    (s.validated.isSome = true ∨ s.schema = none → s.Refuses root) ∧
    (s.validated = none → s.schema.isSome = true →
      (s.parseElement root).2 = (s.parseElement (root.withTag "schema")).2 ∧
      (s.parseElement root).1.schema = (s.parseElement (root.withTag "schema")).1.schema ∧
      (reported s (s.parseElement root).1).map place =
        (reported s (s.parseElement (root.withTag "schema")).1).map place ∧
      (s.Refuses root ↔ s.Refuses (root.withTag "schema"))) := by
  constructor
  · intro hfirst
    cases hvalidated : s.validated with
    | some result => exact refuses_of_refuse (parseElement_of_validated (by rw [hvalidated]; rfl))
    | none =>
      have hschema : s.schema = none := by simpa [hvalidated] using hfirst
      exact refuses_of_refuse (parseElement_of_tag_ne hvalidated hschema htag)
  · intro hvalidated hsome
    obtain ⟨schema, hschema⟩ := Option.isSome_iff_exists.mp hsome
    obtain ⟨hadded, hok, hfindings⟩ := schema.addDocument_withTag root "schema"
    have hreported : (reported s (s.addTo schema root).1).map place =
        (reported s (s.addTo schema (root.withTag "schema")).1).map place := by
      rw [reported_eq (journal_addTo s schema root),
        reported_eq (journal_addTo s schema (root.withTag "schema")),
        map_place_entry hfindings.symm]
    have hverdict : (s.addTo schema root).2 = (s.addTo schema (root.withTag "schema")).2 := by
      rw [Bool.eq_iff_iff, addTo_verdict, addTo_verdict, ← noError_iff (journal_addTo s schema root),
        ← noError_iff (journal_addTo s schema (root.withTag "schema"))]
      exact noError_congr hreported
    have hschemas : (s.addTo schema root).1.schema =
        (s.addTo schema (root.withTag "schema")).1.schema := congrArg some hadded.symm
    rw [← parseElement_of_schema hvalidated hschema, ← parseElement_of_schema hvalidated hschema]
      at hreported hverdict hschemas
    refine ⟨hverdict, hschemas, hreported, ?_⟩
    constructor
    · intro h
      exact ⟨hverdict ▸ h.verdict, mt (noError_congr hreported).mpr h.error,
        hschemas ▸ h.schema⟩
    · intro h
      exact ⟨hverdict ▸ h.verdict, mt (noError_congr hreported).mp h.error,
        hschemas ▸ h.schema⟩

/-- The root of a document with a field, which has another tag. -/
def strayRoot : Element :=
  ⟨"foo", [("name", "P")], [⟨"int", [("name", "A"), ("type", "uint8")], [], "", 1⟩], "", 1⟩

/-- Before any document, it is refused. -/
theorem refuses_strayRoot_first :
    strayRoot.tag ≠ "schema" ∧ (start ⟨none, 0, none, false⟩).schema = none ∧
      (start ⟨none, 0, none, false⟩).Refuses strayRoot :=
  ⟨by decide, rfl, (root_tag_decides_first _ strayRoot (by decide)).1 (Or.inr rfl)⟩

/-- A session that has taken a document without content. -/
def namedSession : Session :=
  after ⟨none, 0, none, false⟩ [.element ⟨"schema", [("name", "P")], [], "", 1⟩]

/-- After another document, it is taken without an error, and its field is added. -/
theorem takes_strayRoot_later :
    strayRoot.tag ≠ "schema" ∧ (namedSession.parseElement strayRoot).2 = true ∧
      NoError namedSession (namedSession.parseElement strayRoot).1 ∧
      namedSession.schema.map (·.arena.size) = some 0 ∧
      (namedSession.parseElement strayRoot).1.schema.map (·.arena.size) = some 1 ∧
      ¬ namedSession.Refuses strayRoot := by
  have htaken : (namedSession.parseElement strayRoot).2 = true := by decide +kernel
  refine ⟨by decide, htaken, ?_, by decide +kernel, by decide +kernel, fun h => ?_⟩
  · unfold NoError
    decide +kernel
  · rw [h.verdict] at htaken
    cases htaken

end Session

end WireSchema
