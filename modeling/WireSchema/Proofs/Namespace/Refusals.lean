import WireSchema.Proofs.Namespace.Attempts
import WireSchema.Proofs.Namespace.Entries

/-! # Declarations in turn

All declarations of an element have their turns one after the other: those of nested namespaces
first, and then those of the element itself, one kind after the other (`Population.turns`). Whether
a declaration can be read and is refused all the same is a matter of its name: it is taken in the
namespace (`Turn.refused_of_isRepeat`). In all that an element adds, these refusals are reported
(`Population.refuses_add`). -/

namespace WireSchema

open Markup

/-! ### Turns -/

/-- A declaration whose turn has come, with the names that lead to its namespace. -/
structure Turn extends Attempt where
  path : List String
  kind : DeclarationKind

namespace Turn

/-- The turn is one of a declaration that can be read and is refused all the same. -/
def isRepeat (t : Turn) : Bool :=
  (t.kind.read t.context t.element).result.isOk &&
    !(t.kind.add t.setting t.population t.element).result.isOk

/-- The turn inside of a nested namespace. -/
def within (name : String) (t : Turn) : Turn := { t with path := name :: t.path }

/-- The turn is one of a declaration of the kind in the namespace that the names lead to. -/
def isAt (names : List String) (kind : DeclarationKind) (t : Turn) : Bool :=
  t.path == names && t.kind == kind

/-- The declarations of the kind that are refused, in the namespace that the names lead to, because
their name is taken. -/
def repeatsAt (names : List String) (kind : DeclarationKind) (ts : List Turn) : List Element :=
  (ts.filter fun t => t.isAt names kind && t.isRepeat).map fun t => t.element

theorem repeatsAt_append (names : List String) (kind : DeclarationKind) (ts us : List Turn) :
    repeatsAt names kind (ts ++ us) = repeatsAt names kind ts ++ repeatsAt names kind us := by
  unfold repeatsAt
  rw [List.filter_append, List.map_append]

theorem repeatsAt_nil_within (name : String) (kind : DeclarationKind) (ts : List Turn) :
    repeatsAt [] kind (ts.map (within name)) = [] := by
  refine List.map_eq_nil_iff.mpr (List.filter_eq_nil_iff.mpr fun t ht => ?_)
  obtain ⟨u, -, rfl⟩ := List.mem_map.mp ht
  simp [isAt, within]

theorem repeatsAt_cons_within (name first : String) (rest : List String) (kind : DeclarationKind)
    (ts : List Turn) : repeatsAt (first :: rest) kind (ts.map (within name)) =
      if name = first then repeatsAt rest kind ts else [] := by
  have hat (t : Turn) : (t.within name).isAt (first :: rest) kind =
      (decide (name = first) && t.isAt rest kind) := by
    simp [isAt, within, Bool.and_assoc, beq_eq_decide]
  have hrepeat (t : Turn) : (t.within name).isRepeat = t.isRepeat := rfl
  unfold repeatsAt
  rw [List.filter_map, List.map_map]
  simp only [Function.comp_def, hat, hrepeat]
  split_ifs with hname
  · simp only [hname, decide_true, Bool.true_and]
    rfl
  · simp only [hname, decide_false, Bool.false_and, List.filter_false, List.map_nil]

end Turn

namespace Population

variable {setting : Setting} {p q : Population} {e : Element}

/-- The turns of declarations of the kind that stand side by side. -/
def turnsOf (setting : Setting) (kind : DeclarationKind) (p : Population) : List Element → List Turn
  | [] => []
  | e :: es =>
    ⟨⟨setting, p, e⟩, [], kind⟩ ::
      turnsOf setting kind (Growth.ofPass p e.line (kind.add setting p e)).population es

/-- The declarations of the kind that an element has, directly or in a wrapper. -/
def own (kind : DeclarationKind) (e : Element) : List Element :=
  declared e kind.wrapper kind.accepts

/-- Adds the declarations of the kinds, one kind after the other. -/
def addKinds (setting : Setting) (properties : List String) (e : Element) :
    List DeclarationKind → Population → Growth
  | [], p => Growth.warnings p (unknownChildren p.scope properties e)
  | kind :: kinds, p =>
    (Growth.forEach (kind.add setting) p (own kind e)).andThen fun p =>
      addKinds setting properties e kinds p

/-- The turns of the declarations of the kinds. -/
def turnsOfKinds (setting : Setting) (e : Element) : List DeclarationKind → Population → List Turn
  | [], _ => []
  | kind :: kinds, p =>
    turnsOf setting kind p (own kind e) ++
      turnsOfKinds setting e kinds (Growth.forEach (kind.add setting) p (own kind e)).population

mutual

/-- The turns of the declarations of an element. -/
def turns (setting : Setting) (p : Population) : Element → List Turn
  | ⟨tag, attrs, children, text, line⟩ =>
    nestedTurns setting p children ++
      turnsOfKinds setting ⟨tag, attrs, children, text, line⟩ DeclarationKind.all
        (addNamespaces setting p children).population

/-- The turns of the declarations of the nested namespaces among the elements. -/
def nestedTurns (setting : Setting) (p : Population) : List Element → List Turn
  | [] => []
  | e :: es =>
    (if e.tag == "ns" then
      (entered? setting p e).elim [] fun q => (turns setting q e).map (.within q.scope.name)
    else []) ++
      nestedTurns setting
        (if e.tag == "ns" then
          addNested setting p e fun q => add setting Namespace.properties q e
        else Growth.none p).population es

end

end Population

/-! ### Refusals -/

namespace Turn

/-- The findings report that the name of the declaration is taken. -/
def Refused (t : Turn) (findings : List Finding) : Prop :=
  ∃ d, (t.kind.read t.context t.element).result = .ok d ∧
    ⟨t.element.line, .error (t.kind.refusal t.population.scope.externalRef d)⟩ ∈ findings

theorem Refused.mono {t : Turn} {xs ys : List Finding} (h : t.Refused xs)
    (hsub : ∀ x ∈ xs, x ∈ ys) : t.Refused ys := by
  obtain ⟨d, hd, hmem⟩ := h
  exact ⟨d, hd, hsub _ hmem⟩

theorem Refused.within {t : Turn} {findings : List Finding} (h : t.Refused findings)
    (name : String) : (t.within name).Refused findings :=
  h

/-- **A declaration that can be read is refused for its name only.** -/
theorem refused_of_isRepeat {t : Turn} (hp : t.population.Arranged) (h : t.isRepeat = true) :
    t.Refused (Growth.ofPass t.population t.element.line
      (t.kind.add t.setting t.population t.element)).findings := by
  have houtcome := Population.outcome_add t.setting t.element hp t.kind
  unfold isRepeat at h
  rw [Bool.and_eq_true, Bool.not_eq_true'] at h
  obtain ⟨hread, hadd⟩ := h
  generalize hr : (t.kind.read t.context t.element).result = r at hread
  generalize ha : (t.kind.add t.setting t.population t.element).result = a at hadd houtcome
  rw [show (t.kind.read (t.population.context t.setting) t.element).result = r from hr] at houtcome
  cases houtcome with
  | unread failure failure' => cases hread
  | @refused d _ =>
    refine ⟨d, hr, ?_⟩
    unfold Growth.ofPass Pass.settle
    rw [ha]
    exact List.mem_append_right _ (List.mem_singleton_self _)
  | placed _ => cases hadd

end Turn

/-- The declarations that are refused for their name are reported. -/
structure Growth.Refuses (p : Population) (ts : List Turn) (g : Growth) : Prop where
  grows : Population.Extends p g.population
  tidy : Population.Keeps Namespace.Tidy p g.population
  refused : p.Arranged → ∀ t ∈ ts, t.isRepeat = true → t.Refused g.findings

namespace Growth.Refuses

variable {setting : Setting} {p : Population} {ts us : List Turn} {g : Growth}

theorem warnings (p : Population) (ws : List (Nat × Warning)) :
    Refuses p [] (.warnings p ws) :=
  ⟨.refl p, id, fun _ _ ht => absurd ht List.not_mem_nil⟩

theorem seq {step : Population → Growth} (hg : Refuses p ts g)
    (hstep : Refuses g.population us (step g.population)) :
    Refuses p (ts ++ us) (g.andThen step) := by
  refine ⟨hg.grows.trans hstep.grows, fun h => hstep.tidy (hg.tidy h), fun hp t ht hrepeat => ?_⟩
  rcases List.mem_append.mp ht with ht | ht
  · exact (hg.refused hp t ht hrepeat).mono fun x hx => List.mem_append_left _ hx
  · have hq := hp.extend hg.grows hg.tidy
    exact (hstep.refused hq t ht hrepeat).mono fun x hx => List.mem_append_right _ hx

theorem declaration (setting : Setting) (kind : DeclarationKind) (p : Population) (e : Element) :
    Refuses p [⟨⟨setting, p, e⟩, [], kind⟩] (.ofPass p e.line (kind.add setting p e)) := by
  refine ⟨(Population.extends_law setting).declaration kind p e,
    (Population.keeps_law setting (Namespace.upkeep_tidy _)).declaration kind p e,
    fun hp t ht hrepeat => ?_⟩
  obtain rfl := List.mem_singleton.mp ht
  exact Turn.refused_of_isRepeat hp hrepeat

end Growth.Refuses

namespace Population

variable {setting : Setting} {p : Population} {e : Element}

theorem refuses_forEach (setting : Setting) (kind : DeclarationKind) (p : Population)
    (es : List Element) :
    Growth.Refuses p (turnsOf setting kind p es) (.forEach (kind.add setting) p es) := by
  induction es generalizing p with
  | nil => exact .warnings p []
  | cons e es ih => exact (Growth.Refuses.declaration setting kind p e).seq (ih _)

theorem refuses_addKinds (setting : Setting) (properties : List String) (e : Element)
    (kinds : List DeclarationKind) (p : Population) :
    Growth.Refuses p (turnsOfKinds setting e kinds p)
      (addKinds setting properties e kinds p) := by
  induction kinds generalizing p with
  | nil => exact .warnings p _
  | cons kind kinds ih => exact (refuses_forEach setting kind p _).seq (ih _)

theorem refuses_addNested {fill : Population → Growth} {ts : Population → List Turn}
    (h : ∀ q, Growth.Refuses q (ts q) (fill q)) :
    Growth.Refuses p
      ((entered? setting p e).elim [] fun q => (ts q).map (.within q.scope.name))
      (addNested setting p e fill) := by
  refine ⟨extends_addNested fun q => (h q).grows,
    keeps_addNested (Namespace.upkeep_tidy _) fun q => (h q).tidy, fun hp t ht hrepeat => ?_⟩
  unfold entered? at ht
  unfold addNested
  cases hname : (readName e).result with
  | error err =>
    rw [hname] at ht
    exact absurd ht List.not_mem_nil
  | ok name =>
    cases hdescription : (e.props Namespace.properties).single "description" with
    | error err =>
      rw [hname, hdescription] at ht
      exact absurd ht List.not_mem_nil
    | ok description =>
      rw [hname, hdescription, Option.elim_some] at ht
      obtain ⟨u, hu, rfl⟩ := List.mem_map.mp ht
      have hfill := (h ⟨{ p.nested setting name with
        description := description.getD (p.nested setting name).description }, p.catalogue⟩).refused
          (arranged_nested setting hp name _) u hu hrepeat
      simp only [hname]
      split_ifs
      · exact (hfill.mono fun x hx => List.mem_append_right _ hx).within _
      · exact (hfill.mono fun x hx =>
          List.mem_append_left _ (List.mem_append_right _ hx)).within _

theorem refuses_addNamespaces {es : List Element}
    (h : ∀ e ∈ es, ∀ properties q,
      Growth.Refuses q (turns setting q e) (add setting properties q e)) (p : Population) :
    Growth.Refuses p (nestedTurns setting p es) (addNamespaces setting p es) := by
  induction es generalizing p with
  | nil =>
    rw [nestedTurns, addNamespaces]
    exact .warnings p []
  | cons e es ih =>
    rw [nestedTurns, addNamespaces]
    refine Growth.Refuses.seq ?_ (ih (fun c hc => h c (List.mem_cons_of_mem _ hc)) _)
    split_ifs
    · exact refuses_addNested fun q => h e List.mem_cons_self _ q
    · exact .warnings p []

/-- **All declarations that are refused for their name are reported.** -/
theorem refuses_add (setting : Setting) (e : Element) (properties : List String) (p : Population) :
    Growth.Refuses p (turns setting p e) (add setting properties p e) := by
  induction e using Element.nested_induction generalizing properties p with
  | step e ih =>
    obtain ⟨tag, attrs, children, text, line⟩ := e
    rw [turns, add]
    exact (refuses_addNamespaces (fun c hc properties q => ih c hc properties q) p).seq
      (refuses_addKinds setting properties _ _ _)

end Population

end WireSchema
