import Mathlib.Data.List.Basic
import WireSchema.Field.Declaration
import WireSchema.Proofs.Finding.Pass
import WireSchema.Proofs.Literal.Path

/-! # Fields as they are read

A field that is read has the core of its declaration (`readMerged_eq_ok`). In a namespace its name
is a name, and its path is that name after the path of the namespace (`core_of_readMerged`). -/

namespace WireSchema

open Markup

variable {ctx : Context} {pos : Position} {e : Element}

theorem checkName_eq_ok {name : String} : checkName name = .ok () ↔ Literal.isName name = true := by
  unfold checkName
  split_ifs with h <;> simp [h]

theorem readMerged_eq_ok {nested : NestedReader} {f : Field} :
    (readMerged ctx nested pos e).result = .ok f ↔
      ∃ kind, FieldKind.ofTag? e.tag = some kind ∧
        readCore ctx pos (e.props kind.properties) e = .ok f.core ∧
        (readBody ctx nested kind f.core pos (e.props kind.properties) e).result = .ok f.body ∧
        (kind == .ref || f.core.semanticType.fits kind) = true := by
  unfold readMerged
  cases hk : FieldKind.ofTag? e.tag with
  | none => simp [Pass.fail]
  | some kind =>
    simp only [Option.some.injEq, exists_eq_left']
    constructor
    · intro h
      obtain ⟨core, hcore, h⟩ := Pass.result_bind_eq_ok.mp h
      obtain ⟨body, hbody, h⟩ := Pass.result_bind_eq_ok.mp h
      obtain ⟨_, hrole, h⟩ := Pass.result_bind_eq_ok.mp h
      cases h
      rw [Pass.result_liftM_eq_ok] at hcore
      exact ⟨hcore, hbody, Pass.result_require_eq_ok.mp hrole⟩
    · rintro ⟨hcore, hbody, hrole⟩
      refine Pass.result_bind_eq_ok.mpr ⟨f.core, Pass.result_liftM_eq_ok.mpr hcore, ?_⟩
      refine Pass.result_bind_eq_ok.mpr ⟨f.body, hbody, ?_⟩
      refine Pass.result_bind_eq_ok.mpr ⟨(), Pass.result_require_eq_ok.mpr hrole, ?_⟩
      obtain ⟨core, body⟩ := f
      rfl

/-- The properties of an element give the name. Only a reference that is not declared in a namespace
may go without one. -/
def GivesName (props : Props) (pos : Position) (tag name : String) : Prop :=
  (props.single "name" = .ok (some name) ∧ Literal.isName name = true) ∨
    (props.single "name" = .ok none ∧ tag = FieldKind.ref.tag ∧ pos.topLevel = false ∧ name = "")

/-- What is read after the name. -/
theorem readRest_eq_ok {props : Props} {name : String} {core : FieldCore} :
    (do
      let semanticType ← props.parsedD "semanticType" SemanticType.ofText? .none
      let window ← Window.read name props pos.parent ctx.schemaVersion
      let displayName ← props.textOf "displayName"
      let description ← props.textOf "description"
      return { name, displayName, description, window,
               externalRef := if pos.topLevel then ctx.externalRef name else "",
               semanticType, line := e.line } : Except SchemaError FieldCore) = .ok core ↔
      core.name = name ∧
      props.parsedD "semanticType" SemanticType.ofText? .none = .ok core.semanticType ∧
      Window.read core.name props pos.parent ctx.schemaVersion = .ok core.window ∧
      props.textOf "displayName" = .ok core.displayName ∧
      props.textOf "description" = .ok core.description ∧
      core.externalRef = (if pos.topLevel then ctx.externalRef core.name else "") ∧
      core.line = e.line := by
  obtain ⟨n, display, description, window, ref, role, line⟩ := core
  simp only [bind_eq_ok]
  constructor
  · rintro ⟨role, hrole, window, hwindow, display, hdisplay, description, hdescription, h⟩
    cases h
    exact ⟨rfl, hrole, hwindow, hdisplay, hdescription, rfl, rfl⟩
  · rintro ⟨rfl, hrole, hwindow, hdisplay, hdescription, rfl, rfl⟩
    exact ⟨role, hrole, window, hwindow, display, hdisplay, description, hdescription, rfl⟩

theorem readCore_eq_ok {props : Props} {core : FieldCore} :
    readCore ctx pos props e = .ok core ↔
      GivesName props pos e.tag core.name ∧
      props.parsedD "semanticType" SemanticType.ofText? .none = .ok core.semanticType ∧
      Window.read core.name props pos.parent ctx.schemaVersion = .ok core.window ∧
      props.textOf "displayName" = .ok core.displayName ∧
      props.textOf "description" = .ok core.description ∧
      core.externalRef = (if pos.topLevel then ctx.externalRef core.name else "") ∧
      core.line = e.line := by
  unfold readCore GivesName
  rw [bind_eq_ok]
  constructor
  · rintro ⟨given, hgiven, h⟩
    cases given with
    | none =>
      dsimp only at h
      split at h
      · rename_i hcond
        rw [Bool.and_eq_true, beq_iff_eq, Bool.not_eq_true'] at hcond
        obtain ⟨_, ⟨⟩, h⟩ := bind_eq_ok.mp h
        obtain ⟨hempty, hrest⟩ := readRest_eq_ok.mp h
        exact ⟨Or.inr ⟨hgiven, hcond.1, hcond.2, hempty⟩, hrest⟩
      · obtain ⟨_, h, -⟩ := bind_eq_ok.mp h
        cases h
    | some name =>
      obtain ⟨_, hcheck, h⟩ := bind_eq_ok.mp h
      obtain ⟨_, ⟨⟩, h⟩ := bind_eq_ok.mp h
      obtain ⟨hname, hrest⟩ := readRest_eq_ok.mp h
      exact ⟨Or.inl ⟨hname ▸ hgiven, hname ▸ checkName_eq_ok.mp hcheck⟩, hrest⟩
  · rintro ⟨⟨hgiven, hname⟩ | ⟨hgiven, htag, hpos, hempty⟩, hrest⟩
    · refine ⟨some core.name, hgiven, bind_eq_ok.mpr ⟨(), checkName_eq_ok.mpr hname, ?_⟩⟩
      exact bind_eq_ok.mpr ⟨core.name, rfl, readRest_eq_ok.mpr ⟨rfl, hrest⟩⟩
    · refine ⟨none, hgiven, ?_⟩
      dsimp only
      rw [if_pos (by rw [htag, hpos]; rfl)]
      exact bind_eq_ok.mpr ⟨"", rfl, readRest_eq_ok.mpr ⟨hempty, hrest⟩⟩

theorem readCore_inNamespace {props : Props} {core : FieldCore}
    (h : readCore ctx .inNamespace props e = .ok core) :
    Literal.isName core.name = true ∧ core.externalRef = qualify ctx.scope core.name := by
  obtain ⟨hname | ⟨-, -, hpos, -⟩, -, -, -, -, href, -⟩ := readCore_eq_ok.mp h
  · exact ⟨hname.2, href⟩
  · cases hpos

/-- **A field of a namespace has a name, and the path that its name has there.** -/
theorem core_of_readMerged {nested : NestedReader} {f : Field}
    (h : (readMerged ctx nested .inNamespace e).result = .ok f) :
    Literal.isName f.name = true ∧ f.externalRef = qualify ctx.scope f.name := by
  obtain ⟨kind, -, hcore, -⟩ := readMerged_eq_ok.mp h
  exact readCore_inNamespace hcore

end WireSchema
