import WireSchema.Proofs.Namespace.Extension
import WireSchema.Proofs.Namespace.Reuse

/-! # Field declarations in turn

The field declarations of an element have their turns one after the other: those of nested
namespaces first, and then those of the element itself (`Population.attempts`). Each finds the
catalogue that the one before it left (`Chain`), so that the fields that can be reused are those
that were accepted in earlier turns (`Chain.base?_eq_none_iff`). What fails is reported
(`Growth.Records`). -/

namespace WireSchema

open Markup

/-- A field declaration whose turn has come, and the population that it finds. -/
structure Attempt where
  setting : Setting
  population : Population
  element : Element

namespace Attempt

/-- What the declaration is read with. -/
def context (x : Attempt) : Context := x.population.context x.setting

/-- The path of the namespace, and the element that declares the field in it. -/
def declaration (x : Attempt) : String × Element := (x.population.scope.externalRef, x.element)

/-- The population with the field, or the reason why it is not accepted. -/
def outcome (x : Attempt) : Except Failure Population :=
  (Population.addField x.setting x.population x.element).result

/-- The catalogue that the declaration leaves. -/
def catalogue (x : Attempt) : Catalogue :=
  match x.outcome with
  | .ok q => q.catalogue
  | .error _ => x.population.catalogue

/-- The field, if it is accepted. -/
def field? (x : Attempt) : Option Field :=
  match x.outcome with
  | .ok q => q.catalogue.arena.get? x.population.catalogue.arena.size
  | .error _ => none

/-- The declaration reuses a field that is not found under the path. -/
def Misses (x : Attempt) (path : String) : Prop :=
  x.context.merge x.element =
    .error (.invalid ((x.element.attr "name").getD x.element.tag) (.unknownBase path))

variable {x : Attempt}

/-- A field that is accepted can be reused under its path; otherwise all stays as it was. -/
theorem catalogue_cases (x : Attempt) :
    (∃ f merged, x.field? = some f ∧ x.catalogue = ⟨x.population.catalogue.arena.push f,
        (f.externalRef, merged) :: x.population.catalogue.bases⟩) ∨
      x.field? = none ∧ x.catalogue = x.population.catalogue := by
  unfold field? catalogue
  cases h : x.outcome with
  | error err => exact Or.inr ⟨rfl, rfl⟩
  | ok q =>
    obtain ⟨merged, f, hf⟩ := Population.exists_accepted h
    obtain ⟨-, -, fields, -, rfl⟩ := Population.accepted_iff.mp hf
    exact Or.inl ⟨f, merged, hf.field, rfl⟩

/-- **What is reused is missed if and only if it is not there to be reused.** -/
theorem misses_iff {path : String} (htag : isFieldTag x.element.tag = true)
    (hreuse : (x.element.props ["reuse"]).single "reuse" = .ok (some path)) :
    x.Misses path ↔ x.context.base? path = none := by
  obtain ⟨kind, hkind⟩ := Option.isSome_iff_exists.mp htag
  unfold Misses Context.merge
  simp only [hkind, hreuse]
  cases hbase : x.context.base? path with
  | none => simp
  | some base =>
    dsimp only
    split_ifs <;> simp

theorem Misses.outcome {path : String} (h : x.Misses path) :
    x.outcome = .error
      (.error (.invalid ((x.element.attr "name").getD x.element.tag) (.unknownBase path))) := by
  have hmerge : (liftM (x.context.merge x.element) : Pass Element).result = _ :=
    Pass.result_liftM_of_error h
  exact congrArg Pass.result (Pass.bind_of_error _ hmerge)

end Attempt

theorem Context.lookup?_eq_none_iff {ctx : Context} {path : String} :
    ctx.lookup? path = none ↔ path ∉ ctx.bases.map (·.1) := by
  rw [Context.lookup?, Option.map_eq_none_iff, List.find?_eq_none, List.mem_map]
  simp only [beq_iff_eq, not_exists, not_and]

/-! ### Chains -/

/-- Each declaration finds the catalogue that the one before it left. -/
inductive Chain : Catalogue → List Attempt → Catalogue → Prop
  | nil (c : Catalogue) : Chain c [] c
  | cons {x : Attempt} {xs : List Attempt} {d : Catalogue} (h : Chain x.catalogue xs d) :
    Chain x.population.catalogue (x :: xs) d

namespace Chain

variable {b c d : Catalogue} {x : Attempt} {xs ys : List Attempt}

theorem append (h : Chain b xs c) (h' : Chain c ys d) : Chain b (xs ++ ys) d := by
  induction h with
  | nil => exact h'
  | cons _ ih => exact .cons (ih h')

theorem before (h : Chain c (xs ++ x :: ys) d) : Chain c xs x.population.catalogue := by
  induction xs generalizing c with
  | nil =>
    cases h
    exact .nil _
  | cons y xs ih =>
    cases h with
    | cons h => exact .cons (ih h)

/-- **The arena gains the fields that are accepted**, in the order of their turns. -/
theorem arena (h : Chain c xs d) :
    d.arena.fields.toList = c.arena.fields.toList ++ xs.filterMap Attempt.field? := by
  induction h with
  | nil => simp
  | @cons x xs d _ ih =>
    rcases x.catalogue_cases with ⟨f, merged, hf, hx⟩ | ⟨hf, hx⟩
    · rw [ih, hx, List.filterMap_cons_some hf, Arena.push, Array.toList_push, List.append_assoc,
        List.singleton_append]
    · rw [ih, hx, List.filterMap_cons_none hf]

theorem paths (h : Chain c xs d) :
    d.bases.map (·.1) =
      ((xs.filterMap Attempt.field?).map Field.externalRef).reverse ++ c.bases.map (·.1) := by
  induction h with
  | nil => simp
  | @cons x xs d _ ih =>
    rcases x.catalogue_cases with ⟨f, merged, hf, hx⟩ | ⟨hf, hx⟩
    · rw [ih, hx, List.filterMap_cons_some hf, List.map_cons, List.map_cons, List.reverse_cons,
        List.append_assoc, List.singleton_append]
    · rw [ih, hx, List.filterMap_cons_none hf]

theorem mem_paths_iff {a : Arena} (h : Chain ⟨a, []⟩ xs d) {path : String} :
    path ∈ d.bases.map (·.1) ↔
      ∃ y ∈ xs, ∃ f, y.field? = some f ∧ f.externalRef = path := by
  rw [h.paths, List.map_nil, List.append_nil, List.mem_reverse, List.mem_map]
  simp only [List.mem_filterMap]
  constructor
  · rintro ⟨f, ⟨y, hy, hf⟩, hpath⟩
    exact ⟨y, hy, f, hf, hpath⟩
  · rintro ⟨y, hy, f, hf, hpath⟩
    exact ⟨f, ⟨y, hy, hf⟩, hpath⟩

/-- **A field can be reused if and only if it was accepted in an earlier turn.** -/
theorem base?_eq_none_iff {a : Arena} (h : Chain ⟨a, []⟩ xs x.population.catalogue)
    {path : String} : x.context.base? path = none ↔
      ¬ ∃ y ∈ xs, ∃ f, y.field? = some f ∧
        (f.externalRef = qualify x.population.scope.externalRef path ∨ f.externalRef = path) := by
  have hlookup (key : String) : x.context.lookup? key = none ↔
      ¬ ∃ y ∈ xs, ∃ f, y.field? = some f ∧ f.externalRef = key := by
    rw [← h.mem_paths_iff, Context.lookup?_eq_none_iff]
    rfl
  rw [Context.base?, Option.or_eq_none_iff, hlookup, hlookup, ← not_or]
  refine not_congr ?_
  constructor
  · rintro (⟨y, hy, f, hf, href⟩ | ⟨y, hy, f, hf, href⟩)
    · exact ⟨y, hy, f, hf, Or.inl href⟩
    · exact ⟨y, hy, f, hf, Or.inr href⟩
  · rintro ⟨y, hy, f, hf, href | href⟩
    · exact Or.inl ⟨y, hy, f, hf, href⟩
    · exact Or.inr ⟨y, hy, f, hf, href⟩

end Chain

/-! ### Growth that is recorded -/

/-- The attempts are all the field declarations of the growth, and those that fail are reported. -/
structure Growth.Records (p : Population) (xs : List Attempt) (g : Growth) : Prop where
  chain : Chain p.catalogue xs g.population.catalogue
  reported : ∀ x ∈ xs, ∀ err, x.outcome = .error (.error err) →
    ⟨x.element.line, .error err⟩ ∈ g.findings

namespace Growth.Records

variable {setting : Setting} {p : Population} {xs ys : List Attempt} {g : Growth}

theorem of_catalogue (h : g.population.catalogue = p.catalogue) : Records p [] g := by
  refine ⟨?_, fun x hx => absurd hx List.not_mem_nil⟩
  rw [h]
  exact .nil _

theorem seq {step : Population → Growth} (hg : Records p xs g)
    (hstep : Records g.population ys (step g.population)) :
    Records p (xs ++ ys) (g.andThen step) := by
  refine ⟨hg.chain.append hstep.chain, fun x hx err herr => ?_⟩
  rcases List.mem_append.mp hx with hx | hx
  · exact List.mem_append_left _ (hg.reported x hx err herr)
  · exact List.mem_append_right _ (hstep.reported x hx err herr)

theorem field (setting : Setting) (p : Population) (e : Element) :
    Records p [⟨setting, p, e⟩] (.ofPass p e.line (Population.addField setting p e)) := by
  have hcatalogue :
      (Growth.ofPass p e.line (Population.addField setting p e)).population.catalogue =
        (⟨setting, p, e⟩ : Attempt).catalogue := by
    unfold Growth.ofPass Pass.settle Attempt.catalogue Attempt.outcome
    cases (Population.addField setting p e).result <;> rfl
  have hchain : Chain p.catalogue [⟨setting, p, e⟩] (⟨setting, p, e⟩ : Attempt).catalogue :=
    .cons (x := ⟨setting, p, e⟩) (.nil _)
  refine ⟨hcatalogue ▸ hchain, fun x hx err herr => ?_⟩
  obtain rfl := List.mem_singleton.mp hx
  have herr : (Population.addField setting p e).result = .error (.error err) := herr
  unfold Growth.ofPass Pass.settle
  rw [herr]
  exact List.mem_append_right _ (List.mem_singleton_self _)

/-- Steps that leave the catalogue as it is. -/
theorem forEach {step : Population → Element → Pass Population}
    (h : ∀ p e q, (step p e).result = .ok q → q.catalogue = p.catalogue) (p : Population)
    (es : List Element) : Records p [] (.forEach step p es) := by
  induction es generalizing p with
  | nil => exact of_catalogue rfl
  | cons e es ih =>
    have hstep : Records p [] (Growth.ofPass p e.line (step p e)) := by
      refine of_catalogue ?_
      rcases Growth.population_ofPass p e.line (step p e) with hp | hp
      · rw [hp]
      · exact h _ _ _ hp
    exact hstep.seq (ih _)

end Growth.Records

namespace Population

variable {setting : Setting} {p : Population} {e : Element}

/-- The turns of field declarations that stand side by side. -/
def fieldAttempts (setting : Setting) (p : Population) : List Element → List Attempt
  | [] => []
  | e :: es =>
    ⟨setting, p, e⟩ ::
      fieldAttempts setting (Growth.ofPass p e.line (addField setting p e)).population es

theorem records_fieldAttempts (setting : Setting) (p : Population) (es : List Element) :
    Growth.Records p (fieldAttempts setting p es) (.forEach (addField setting) p es) := by
  induction es generalizing p with
  | nil => exact .of_catalogue rfl
  | cons e es ih => exact (Growth.Records.field setting p e).seq (ih _)

theorem records_addOwn (setting : Setting) (properties : List String) (e : Element)
    (p : Population) : Growth.Records p (fieldAttempts setting p (declared e "fields" isFieldTag))
      (addOwn setting properties e p) := by
  have hinterfaces (p : Population) (es : List Element) :
      Growth.Records p [] (.forEach (addInterface setting) p es) :=
    .forEach (fun p e q h => by
      obtain ⟨i, interfaces, -, -, rfl⟩ := addInterface_eq_ok h
      rfl) p es
  have hmessages (p : Population) (es : List Element) :
      Growth.Records p [] (.forEach (addMessage setting) p es) :=
    .forEach (fun p e q h => by
      obtain ⟨m, messages, -, -, rfl⟩ := addMessage_eq_ok h
      rfl) p es
  have hframes (p : Population) (es : List Element) :
      Growth.Records p [] (.forEach (addFrame setting) p es) :=
    .forEach (fun p e q h => by
      obtain ⟨f, frames, -, -, rfl⟩ := addFrame_eq_ok h
      rfl) p es
  rw [← List.append_nil (fieldAttempts setting p _)]
  unfold addOwn
  refine (records_fieldAttempts _ _ _).seq ?_
  exact (hinterfaces _ _).seq ((hmessages _ _).seq ((hframes _ _).seq (.of_catalogue rfl)))

/-- The population of a nested namespace that the content of an element is added to. -/
def entered? (setting : Setting) (p : Population) (e : Element) : Option Population :=
  match (readName e).result, (e.props Namespace.properties).single "description" with
  | .ok name, .ok description =>
    let scope := p.nested setting name
    some ⟨{ scope with description := description.getD scope.description }, p.catalogue⟩
  | _, _ => none

theorem records_addNested {xs : Population → List Attempt} {fill : Population → Growth}
    (h : ∀ q, Growth.Records q (xs q) (fill q)) :
    Growth.Records p ((entered? setting p e).elim [] xs) (addNested setting p e fill) := by
  unfold entered? addNested
  cases hname : (readName e).result with
  | error err => exact .of_catalogue (by simp only [hname])
  | ok name =>
    cases hdescription : (e.props Namespace.properties).single "description" with
    | error err => exact .of_catalogue (by simp only [hname]; rfl)
    | ok description =>
      have hfill := h ⟨{ p.nested setting name with
        description := description.getD (p.nested setting name).description }, p.catalogue⟩
      simp only [hname, Option.elim_some]
      split_ifs
      · refine ⟨hfill.chain, fun x hx err herr => ?_⟩
        exact List.mem_append_right _ (hfill.reported x hx err herr)
      · refine ⟨hfill.chain, fun x hx err herr => ?_⟩
        exact List.mem_append_left _ (List.mem_append_right _ (hfill.reported x hx err herr))

mutual

/-- The turns of the field declarations of an element. -/
def attempts (setting : Setting) (p : Population) : Element → List Attempt
  | ⟨tag, attrs, children, text, line⟩ =>
    nestedAttempts setting p children ++
      fieldAttempts setting (addNamespaces setting p children).population
        (declared ⟨tag, attrs, children, text, line⟩ "fields" isFieldTag)

/-- The turns of the field declarations of the nested namespaces among the elements. -/
def nestedAttempts (setting : Setting) (p : Population) : List Element → List Attempt
  | [] => []
  | e :: es =>
    (if e.tag == "ns" then (entered? setting p e).elim [] fun q => attempts setting q e else []) ++
      nestedAttempts setting
        (if e.tag == "ns" then
          addNested setting p e fun q => add setting Namespace.properties q e
        else Growth.none p).population es

end

theorem records_nestedAttempts {es : List Element} (h : ∀ e ∈ es, ∀ properties p,
      Growth.Records p (attempts setting p e) (add setting properties p e)) (p : Population) :
    Growth.Records p (nestedAttempts setting p es) (addNamespaces setting p es) := by
  induction es generalizing p with
  | nil =>
    rw [nestedAttempts, addNamespaces]
    exact .of_catalogue rfl
  | cons e es ih =>
    rw [nestedAttempts, addNamespaces]
    refine Growth.Records.seq ?_ (ih (fun c hc => h c (List.mem_cons_of_mem _ hc)) _)
    split_ifs
    · exact records_addNested fun q => h e List.mem_cons_self _ q
    · exact .of_catalogue rfl

/-- **All field declarations of an element have their turns**, each with the catalogue that the one
before it left, and those that fail are reported. -/
theorem records_attempts (setting : Setting) (e : Element) (properties : List String)
    (p : Population) : Growth.Records p (attempts setting p e) (add setting properties p e) := by
  induction e using Element.nested_induction generalizing properties p with
  | step e ih =>
    obtain ⟨tag, attrs, children, text, line⟩ := e
    rw [attempts, add]
    exact (records_nestedAttempts (fun c hc properties p => ih c hc properties p) p).seq
      (records_addOwn setting properties _ _)

end Population

end WireSchema
