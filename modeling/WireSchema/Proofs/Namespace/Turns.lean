import WireSchema.Proofs.Namespace.Attempts

/-! # The order of field declarations

An element says by itself in what order its field declarations have their turns: those of nested
namespaces come first, and then its own (`fieldDeclarations`). In the document they stand in another
order (`documentOrder`), but they are the same (`fieldDeclarations_perm`). Which turns a population
gives does not depend on what it accepts (`Population.map_declaration_attempts`). -/

namespace WireSchema

open Markup

/-- The path of the namespace that an element declares in `scope`, if its content is taken. -/
def nestedPath? (scope : String) (e : Element) : Option String :=
  match (Population.readName e).result, (e.props Namespace.properties).single "description" with
  | .ok name, .ok _ => some (qualify scope name)
  | _, _ => none

mutual

/-- The field declarations of an element with the paths of their namespaces, in the order of their
turns. -/
def fieldDeclarations (scope : String) : Element → List (String × Element)
  | ⟨tag, attrs, children, text, line⟩ =>
    nestedDeclarations scope children ++
      (Population.declared ⟨tag, attrs, children, text, line⟩ "fields" isFieldTag).map (scope, ·)

/-- The field declarations of the nested namespaces among the elements. -/
def nestedDeclarations (scope : String) : List Element → List (String × Element)
  | [] => []
  | e :: es =>
    (if e.tag == "ns" then (nestedPath? scope e).elim [] fun path => fieldDeclarations path e
      else []) ++
      nestedDeclarations scope es

end

/-- The field declarations that a child is, or that it wraps. -/
def ownDeclarations (c : Element) : List Element :=
  if c.tag == "fields" then c.children.filter fun d => isFieldTag d.tag
  else if isFieldTag c.tag then [c]
  else []

mutual

/-- The field declarations of an element with the paths of their namespaces, in the order of the
document. -/
def documentOrder (scope : String) : Element → List (String × Element)
  | ⟨_, _, children, _, _⟩ => documentOrderIn scope children

/-- The field declarations of the elements in the order of the document. -/
def documentOrderIn (scope : String) : List Element → List (String × Element)
  | [] => []
  | e :: es =>
    (if e.tag == "ns" then (nestedPath? scope e).elim [] fun path => documentOrder path e
      else (ownDeclarations e).map (scope, ·)) ++
      documentOrderIn scope es

end

variable {scope : String} {e : Element} {es : List Element}

/-! ### The same declarations -/

theorem nestedDeclarations_perm
    (h : ∀ e ∈ es, ∀ path, (fieldDeclarations path e).Perm (documentOrder path e)) :
    (nestedDeclarations scope es ++ (es.flatMap ownDeclarations).map (scope, ·)).Perm
      (documentOrderIn scope es) := by
  induction es with
  | nil => simp [nestedDeclarations, documentOrderIn]
  | cons e es ih =>
    have hrest := ih fun c hc => h c (List.mem_cons_of_mem _ hc)
    rw [nestedDeclarations, documentOrderIn, List.flatMap_cons, List.map_append, List.append_assoc]
    by_cases hns : (e.tag == "ns") = true
    · -- a namespace declares no field of the element itself
      have hown : ownDeclarations e = [] := by
        unfold ownDeclarations
        rw [beq_iff_eq.mp hns]
        rfl
      rw [hown, List.map_nil, List.nil_append, if_pos hns, if_pos hns]
      refine List.Perm.append ?_ hrest
      cases nestedPath? scope e with
      | none => exact .refl _
      | some path => exact h e List.mem_cons_self path
    · rw [if_neg hns, if_neg hns, List.nil_append]
      exact (List.perm_append_comm_assoc _ _ _).trans (hrest.append_left _)

/-- **The declarations that have a turn are those of the document.** -/
theorem fieldDeclarations_perm (scope : String) (e : Element) :
    (fieldDeclarations scope e).Perm (documentOrder scope e) := by
  induction e using Element.nested_induction generalizing scope with
  | step e ih =>
    obtain ⟨tag, attrs, children, text, line⟩ := e
    rw [fieldDeclarations, documentOrder]
    exact nestedDeclarations_perm fun c hc path => ih c hc path

theorem isFieldTag_of_mem_declared {c : Element} {wrapper : String} {accept : String → Bool}
    (h : c ∈ Population.declared e wrapper accept) : accept c.tag = true := by
  obtain ⟨d, -, hc⟩ := List.mem_flatMap.mp h
  split_ifs at hc with hwrapper haccept
  · exact (List.mem_filter.mp hc).2
  · rw [List.mem_singleton.mp hc]
    exact haccept
  · exact absurd hc List.not_mem_nil

theorem isFieldTag_of_mem_nestedDeclarations {d : String × Element}
    (hes : ∀ c ∈ es, ∀ path, d ∈ fieldDeclarations path c → isFieldTag d.2.tag = true)
    (h : d ∈ nestedDeclarations scope es) : isFieldTag d.2.tag = true := by
  induction es with
  | nil =>
    rw [nestedDeclarations] at h
    exact absurd h List.not_mem_nil
  | cons e es ih =>
    rw [nestedDeclarations, List.mem_append] at h
    rcases h with h | h
    · split_ifs at h
      · cases hpath : nestedPath? scope e with
        | none =>
          rw [hpath] at h
          exact absurd h List.not_mem_nil
        | some path =>
          rw [hpath] at h
          exact hes e List.mem_cons_self path h
      · exact absurd h List.not_mem_nil
    · exact ih (fun c hc => hes c (List.mem_cons_of_mem _ hc)) h

theorem isFieldTag_of_mem_fieldDeclarations {d : String × Element}
    (h : d ∈ fieldDeclarations scope e) : isFieldTag d.2.tag = true := by
  induction e using Element.nested_induction generalizing scope with
  | step e ih =>
    obtain ⟨tag, attrs, children, text, line⟩ := e
    rw [fieldDeclarations, List.mem_append] at h
    rcases h with h | h
    · exact isFieldTag_of_mem_nestedDeclarations (fun c hc path => ih c hc) h
    · obtain ⟨c, hc, rfl⟩ := List.mem_map.mp h
      exact isFieldTag_of_mem_declared hc

/-! ### The turns of a population -/

namespace Population

variable {setting : Setting} {p : Population}

theorem map_declaration_fieldAttempts (setting : Setting) (p : Population) (es : List Element) :
    (fieldAttempts setting p es).map Attempt.declaration =
      es.map (p.scope.externalRef, ·) := by
  induction es generalizing p with
  | nil => rfl
  | cons e es ih =>
    have hgain : Extends p (Growth.ofPass p e.line (addField setting p e)).population :=
      extends_ofPass fun _ => extends_addField
    rw [fieldAttempts, List.map_cons, List.map_cons, ih, hgain.externalRef]
    rfl

theorem entered?_eq (setting : Setting) (e : Element) (ho : p.scope.AllOrderly p.catalogue.arena) :
    (entered? setting p e).map (·.scope.externalRef) = nestedPath? p.scope.externalRef e ∧
      ∀ q, entered? setting p e = some q → q.scope.AllOrderly q.catalogue.arena := by
  unfold entered? nestedPath?
  cases (readName e).result with
  | error err => exact ⟨rfl, nofun⟩
  | ok name =>
    cases (e.props Namespace.properties).single "description" with
    | error err => exact ⟨rfl, nofun⟩
    | ok description =>
      refine ⟨congrArg some (externalRef_nested ho), fun q hq => ?_⟩
      have horderly : (p.nested setting name).AllOrderly p.catalogue.arena := allOrderly_nested ho
      rw [← Option.some.inj hq]
      refine horderly.congr ?_ ?_ ?_ <;> rfl

theorem map_declaration_nestedAttempts
    (h : ∀ e ∈ es, ∀ q : Population, q.scope.AllOrderly q.catalogue.arena →
      (attempts setting q e).map Attempt.declaration = fieldDeclarations q.scope.externalRef e)
    (ho : p.scope.AllOrderly p.catalogue.arena) :
    (nestedAttempts setting p es).map Attempt.declaration =
      nestedDeclarations p.scope.externalRef es := by
  induction es generalizing p with
  | nil => rw [nestedAttempts, nestedDeclarations, List.map_nil]
  | cons e es ih =>
    have hgain : Extends p (if e.tag == "ns" then
        addNested setting p e fun q => add setting Namespace.properties q e
        else Growth.none p).population := by
      split_ifs
      · exact extends_addNested fun q => extends_add setting _ q e
      · exact .refl p
    rw [nestedAttempts, nestedDeclarations, List.map_append,
      ih (fun c hc => h c (List.mem_cons_of_mem _ hc)) (hgain.orderly ho), hgain.externalRef]
    refine congrArg (· ++ _) ?_
    split_ifs
    · obtain ⟨hpath, horderly⟩ := entered?_eq setting e ho
      rw [← hpath]
      cases hq : entered? setting p e with
      | none => rfl
      | some q => exact h e List.mem_cons_self q (horderly q hq)
    · rfl

/-- **The element alone says which turns there are**, whatever the population has in it. -/
theorem map_declaration_attempts (setting : Setting) (e : Element) (p : Population)
    (ho : p.scope.AllOrderly p.catalogue.arena) :
    (attempts setting p e).map Attempt.declaration =
      fieldDeclarations p.scope.externalRef e := by
  induction e using Element.nested_induction generalizing p with
  | step e ih =>
    obtain ⟨tag, attrs, children, text, line⟩ := e
    have hgain : Extends p (addNamespaces setting p children).population :=
      (extends_law setting).addNamespaces (fun c _ properties p => extends_add setting _ p c) p
    rw [attempts, fieldDeclarations, List.map_append,
      map_declaration_nestedAttempts (fun c hc q hq => ih c hc q hq) ho,
      map_declaration_fieldAttempts, hgain.externalRef]

end Population

end WireSchema
