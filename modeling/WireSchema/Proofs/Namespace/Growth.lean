import Mathlib.Data.List.Basic
import WireSchema.Namespace.Declaration
import WireSchema.Proofs.Field.Reading

/-! # How a population grows

`Population.add` goes through nested namespaces, and adds fields, interfaces, messages and frames
one after the other. A law that holds of each single step and of steps in a row holds of the whole
(`Growth.Law.add`). The single steps that succeed are spelt out in `addField_eq_ok`,
`addInterface_eq_ok`, `addMessage_eq_ok`, `addFrame_eq_ok` and `addNested_cases`. -/

namespace WireSchema

open Markup

/-! ### Laws of growth -/

/-- A law about a population and what becomes of it: it holds of single steps, and of one growth
after the other. -/
structure Growth.Law (setting : Setting) (Q : Population → Growth → Prop) : Prop where
  warnings : ∀ p ws, Q p (.warnings p ws)
  andThen : ∀ {p : Population} {g h : Growth}, Q p g → Q g.population h →
    Q p ⟨h.population, g.findings ++ h.findings, g.ok && h.ok⟩
  field : ∀ p e, Q p (.ofPass p e.line (Population.addField setting p e))
  interface : ∀ p e, Q p (.ofPass p e.line (Population.addInterface setting p e))
  message : ∀ p e, Q p (.ofPass p e.line (Population.addMessage setting p e))
  frame : ∀ p e, Q p (.ofPass p e.line (Population.addFrame setting p e))
  nested : ∀ p e (fill : Population → Growth), (∀ q, Q q (fill q)) →
    Q p (Population.addNested setting p e fill)

namespace Growth.Law

variable {setting : Setting} {Q : Population → Growth → Prop}

theorem none (h : Law setting Q) (p : Population) : Q p (.none p) := h.warnings p []

theorem seq (h : Law setting Q) {p : Population} {g : Growth} {step : Population → Growth}
    (hg : Q p g) (hstep : ∀ q, Q q (step q)) : Q p (g.andThen step) :=
  h.andThen hg (hstep _)

theorem forEach (h : Law setting Q) {step : Population → Element → Pass Population}
    (hstep : ∀ p e, Q p (.ofPass p e.line (step p e))) (es : List Element) (p : Population) :
    Q p (.forEach step p es) := by
  induction es generalizing p with
  | nil => exact h.none p
  | cons e es ih => exact h.seq (hstep p e) fun q => ih q

theorem addOwn (h : Law setting Q) (properties : List String) (e : Element) (p : Population) :
    Q p (Population.addOwn setting properties e p) := by
  refine h.seq (h.forEach h.field _ p) fun p => ?_
  refine h.seq (h.forEach h.interface _ p) fun p => ?_
  refine h.seq (h.forEach h.message _ p) fun p => ?_
  refine h.seq (h.forEach h.frame _ p) fun p => ?_
  exact h.warnings p _

theorem addNamespaces (h : Law setting Q) {es : List Element}
    (hes : ∀ e ∈ es, ∀ properties p, Q p (Population.add setting properties p e))
    (p : Population) : Q p (Population.addNamespaces setting p es) := by
  induction es generalizing p with
  | nil =>
    rw [Population.addNamespaces]
    exact h.none p
  | cons e es ih =>
    rw [Population.addNamespaces]
    refine h.seq ?_ fun q => ih (fun c hc => hes c (List.mem_cons_of_mem _ hc)) q
    split_ifs
    · exact h.nested p e _ fun q => hes e List.mem_cons_self _ q
    · exact h.none p

/-- **A law of growth holds of everything that an element adds.** -/
theorem add (h : Law setting Q) (properties : List String) (e : Element) (p : Population) :
    Q p (Population.add setting properties p e) := by
  induction e using Element.nested_induction generalizing properties p with
  | step e ih =>
    obtain ⟨tag, attrs, children, text, line⟩ := e
    rw [Population.add]
    exact h.seq (h.addNamespaces (fun c hc properties p => ih c hc properties p) p)
      (h.addOwn properties _)

end Growth.Law

/-! ### The single steps -/

theorem Growth.population_ofPass (p : Population) (line : Nat) (pass : Pass Population) :
    (Growth.ofPass p line pass).population = p ∨
      pass.result = .ok (Growth.ofPass p line pass).population := by
  unfold Growth.ofPass
  cases h : (pass.settle line).1 with
  | none => exact Or.inl (by simp [h])
  | some q => exact Or.inr (by simp [h, Pass.settle_fst_eq_some.mp h])

theorem Growth.population_ofPass_of_ok {p q : Population} {pass : Pass Population}
    (h : pass.result = .ok q) (line : Nat) : (Growth.ofPass p line pass).population = q := by
  unfold Growth.ofPass
  simp only [Pass.settle_fst_eq_some.mpr h, Option.getD_some]

theorem Growth.population_ofPass_of_error {p : Population} {pass : Pass Population}
    {failure : Failure} (h : pass.result = .error failure) (line : Nat) :
    (Growth.ofPass p line pass).population = p := by
  rcases Growth.population_ofPass p line pass with hp | hp
  · exact hp
  · rw [h] at hp
    cases hp

namespace Population

variable {setting : Setting} {p q : Population} {e : Element}

theorem insert_eq_ok {α : Type} {noun : Noun} {name : α → String} {x : α} {xs ys : List α} :
    (insert noun name x xs).result = .ok ys ↔ insertNamed name x xs = some ys :=
  Pass.result_ofOption_eq_ok

theorem addField_eq_ok :
    (addField setting p e).result = .ok q ↔
      ∃ merged field fields,
        (p.context setting).merge e = .ok merged ∧
        (readMerged (p.context setting) (readField (p.context setting)
          ((p.context setting).depth e)) .inNamespace merged).result = .ok field ∧
        insertNamed Prod.fst (field.name, p.catalogue.arena.size) p.scope.fields = some fields ∧
        q = ⟨{ p.scope with fields },
          ⟨p.catalogue.arena.push field, (field.externalRef, merged) :: p.catalogue.bases⟩⟩ := by
  constructor
  · intro h
    obtain ⟨merged, hm, h⟩ := Pass.result_bind_eq_ok.mp h
    obtain ⟨field, hf, h⟩ := Pass.result_bind_eq_ok.mp h
    obtain ⟨fields, hi, h⟩ := Pass.result_bind_eq_ok.mp h
    rw [Pass.result_liftM_eq_ok] at hm
    rw [Pass.result_pure, Except.ok.injEq] at h
    exact ⟨merged, field, fields, hm, hf, insert_eq_ok.mp hi, h.symm⟩
  · rintro ⟨merged, field, fields, hm, hf, hi, rfl⟩
    refine Pass.result_bind_eq_ok.mpr ⟨merged, Pass.result_liftM_eq_ok.mpr hm, ?_⟩
    refine Pass.result_bind_eq_ok.mpr ⟨field, hf, ?_⟩
    exact Pass.result_bind_eq_ok.mpr ⟨fields, insert_eq_ok.mpr hi, rfl⟩

theorem addInterface_eq_ok (h : (addInterface setting p e).result = .ok q) :
    ∃ i interfaces, (Interface.read (p.context setting) e).result = .ok i ∧
      insertNamed Interface.name i p.scope.interfaces = some interfaces ∧
      q = { p with scope := { p.scope with interfaces } } := by
  obtain ⟨i, hr, h⟩ := Pass.result_bind_eq_ok.mp h
  obtain ⟨_, _, h⟩ := Pass.result_bind_eq_ok.mp h
  obtain ⟨interfaces, hi, h⟩ := Pass.result_bind_eq_ok.mp h
  rw [Pass.result_pure, Except.ok.injEq] at h
  exact ⟨i, interfaces, hr, insert_eq_ok.mp hi, h.symm⟩

theorem addMessage_eq_ok (h : (addMessage setting p e).result = .ok q) :
    ∃ m messages, (Message.read (p.context setting) e).result = .ok m ∧
      insertNamed Message.name m p.scope.messages = some messages ∧
      q = { p with scope := { p.scope with messages } } := by
  obtain ⟨m, hr, h⟩ := Pass.result_bind_eq_ok.mp h
  obtain ⟨messages, hi, h⟩ := Pass.result_bind_eq_ok.mp h
  rw [Pass.result_pure, Except.ok.injEq] at h
  exact ⟨m, messages, hr, insert_eq_ok.mp hi, h.symm⟩

theorem addFrame_eq_ok (h : (addFrame setting p e).result = .ok q) :
    ∃ f frames, (Frame.read (p.context setting) e).result = .ok f ∧
      insertNamed Frame.name f p.scope.frames = some frames ∧
      q = { p with scope := { p.scope with frames } } := by
  obtain ⟨f, hr, h⟩ := Pass.result_bind_eq_ok.mp h
  obtain ⟨frames, hi, h⟩ := Pass.result_bind_eq_ok.mp h
  rw [Pass.result_pure, Except.ok.injEq] at h
  exact ⟨f, frames, hr, insert_eq_ok.mp hi, h.symm⟩

/-- Either the population stays, or a nested namespace with a new description and what was added to
it is put in. -/
theorem addNested_cases (setting : Setting) (p : Population) (e : Element)
    (fill : Population → Growth) :
    (addNested setting p e fill).population = p ∨
      ∃ name, (readName e).result = .ok name ∧
        ((addNested setting p e fill).population =
            p.putNested (p.nested setting name) p.catalogue ∨
          ∃ description : String,
            let q := (fill ⟨{ p.nested setting name with description }, p.catalogue⟩).population
            (addNested setting p e fill).population = p.putNested q.scope q.catalogue) := by
  unfold addNested
  cases hname : (readName e).result with
  | error err => exact Or.inl (by simp [hname])
  | ok name =>
    refine Or.inr ⟨name, rfl, ?_⟩
    cases hd : (e.props Namespace.properties).single "description" with
    | error err => exact Or.inl (by simp [hname])
    | ok description =>
      refine Or.inr ⟨description.getD (p.nested setting name).description, ?_⟩
      simp only [hname]
      split_ifs <;> rfl

theorem isName_of_readName {name : String} (h : (readName e).result = .ok name) :
    Literal.isName name = true := by
  obtain ⟨name', -, h⟩ := Pass.result_bind_eq_ok.mp h
  obtain ⟨_, hcheck, h⟩ := Pass.result_bind_eq_ok.mp h
  obtain ⟨_, -, h⟩ := Pass.result_bind_eq_ok.mp h
  rw [Pass.result_pure, Except.ok.injEq] at h
  subst h
  rw [Pass.result_liftM_eq_ok] at hcheck
  exact checkName_eq_ok.mp hcheck

end Population

end WireSchema
