import WireSchema.Proofs.Namespace.Refusals
import WireSchema.Proofs.Namespace.Splitting

/-! # Declarations that are rejected

A declaration that cannot be read, or whose name is taken, fails in its turn (`Turn.Fails`). Then it
might as well be absent (`Omits`): all other declarations have the same turns, and the same
population is reached (`Population.exists_omits_of_fails`). -/

namespace WireSchema

open Markup

/-- The declaration is rejected in its turn. -/
def Turn.Fails (t : Turn) : Prop :=
  ∃ err, (t.kind.add t.setting t.population t.element).result = .error err

/-- From the elements to the others, one declaration is left out: `d`, which is of the kind. It
stands among the elements, in a wrapper, or in a namespace among them, at any depth. -/
inductive Omits (kind : DeclarationKind) (d : Element) : List Element → List Element → Prop
  | here (hd : kind.accepts d.tag = true) (later : List Element) : Omits kind d (d :: later) later
  | wrapped {w : Element} {before after : List Element} (hw : w.tag = kind.wrapper)
    (hd : kind.accepts d.tag = true) (hchildren : w.children = before ++ d :: after)
    (later : List Element) :
    Omits kind d (w :: later) ({ w with children := before ++ after } :: later)
  | nested {n : Element} {children : List Element} (hn : n.tag = "ns")
    (h : Omits kind d n.children children) (later : List Element) :
    Omits kind d (n :: later) ({ n with children } :: later)
  | later {es es' : List Element} (c : Element) (h : Omits kind d es es') :
    Omits kind d (c :: es) (c :: es')

/-! ### What is left -/

/-- An item of two lists in a row is in the first one or in the second one. -/
theorem append_eq_append_cons {α : Type} {xs ys before after : List α} {x : α}
    (h : xs ++ ys = before ++ x :: after) :
    (∃ rest, xs = before ++ x :: rest ∧ after = rest ++ ys) ∨
      ∃ rest, before = xs ++ rest ∧ ys = rest ++ x :: after := by
  rcases List.append_eq_append_iff.mp h with ⟨rest, hbefore, hys⟩ | ⟨rest, hxs, hafter⟩
  · exact Or.inr ⟨rest, hbefore, hys⟩
  · rcases List.cons_eq_append_iff.mp hafter with ⟨rfl, hys⟩ | ⟨rest, rfl, hrest⟩
    · exact Or.inr ⟨[], by rw [hxs, List.append_nil, List.append_nil], hys⟩
    · exact Or.inl ⟨rest, hxs, hrest⟩

section
variable {kind k : DeclarationKind} {d c : Element} {es es' : List Element}

theorem DeclarationKind.accepts_wrapper (kind k : DeclarationKind) :
    k.accepts kind.wrapper = false := by
  cases kind <;> cases k <;> decide

theorem DeclarationKind.wrapper_ne (h : k ≠ kind) : kind.wrapper ≠ k.wrapper := by
  cases kind <;> cases k <;> first | exact absurd rfl h | decide

theorem DeclarationKind.eq_of_accepts {tag : String} (h : kind.accepts tag = true)
    (hk : k.accepts tag = true) : k = kind := by
  have hfield : ∀ tag ∈ ["interface", "message", "frame"], isFieldTag tag = false := by decide
  cases kind <;> cases k <;> simp_all [DeclarationKind.accepts]

theorem DeclarationKind.tag_ne_wrapper (h : kind.accepts c.tag = true) (k : DeclarationKind) :
    c.tag ≠ k.wrapper := by
  intro htag
  rw [htag, k.accepts_wrapper kind] at h
  cases h

theorem DeclarationKind.accepts_ns (kind : DeclarationKind) : kind.accepts "ns" = false := by
  cases kind <;> decide

theorem DeclarationKind.wrapper_ne_ns (kind : DeclarationKind) : kind.wrapper ≠ "ns" := by
  cases kind <;> decide

theorem declaredBy_of_accepts_of_ne (h : kind.accepts c.tag = true) (hk : k ≠ kind) :
    declaredBy k c = [] := by
  unfold declaredBy
  have haccepts : k.accepts c.tag = false :=
    Bool.eq_false_iff.mpr fun haccepts => hk (DeclarationKind.eq_of_accepts h haccepts)
  rw [beq_false_of_ne (DeclarationKind.tag_ne_wrapper h k), haccepts]
  rfl

theorem declaredBy_of_wrapper (h : c.tag = kind.wrapper) :
    declaredBy kind c = c.children.filter fun d => kind.accepts d.tag := by
  unfold declaredBy
  rw [h, beq_self_eq_true]
  rfl

theorem declaredBy_of_wrapper_of_ne (h : c.tag = kind.wrapper) (hk : k ≠ kind) :
    declaredBy k c = [] := by
  unfold declaredBy
  rw [h, beq_false_of_ne (DeclarationKind.wrapper_ne hk), kind.accepts_wrapper k]
  rfl

/-- What is neither a declaration, nor a wrapper, nor a namespace is not left out. -/
theorem Omits.filter_eq (h : Omits kind d es es') (accept : String → Bool)
    (hns : accept "ns" = false) (hwrapper : accept kind.wrapper = false)
    (haccepts : ∀ tag, kind.accepts tag = true → accept tag = false) (more : Element → Bool) :
    es'.filter (fun c => accept c.tag && more c) = es.filter (fun c => accept c.tag && more c) := by
  induction h with
  | here hd later => simp [haccepts _ hd]
  | wrapped hw _ _ later => simp [hw, hwrapper]
  | nested hn _ later => simp [hn, hns]
  | later c _ ih => simp [List.filter_cons, ih]

/-- **A declaration that is left out takes no property along.** -/
theorem Omits.props_eq {e : Element} {children : List Element}
    (h : Omits kind d e.children children) {names : List String} (hnames : PropertiesOnly names) :
    ({ e with children } : Element).props names = e.props names := by
  have hnot (tag : String) (htag : tag = "ns" ∨ tag = kind.wrapper ∨ kind.accepts tag = true) :
      names.contains tag = false := by
    refine Bool.eq_false_iff.mpr fun hmem => ?_
    obtain ⟨hns, hkind⟩ := hnames tag (List.contains_iff_mem.mp hmem)
    obtain ⟨hwrapper, haccepts⟩ := hkind kind kind.mem_all
    rcases htag with htag | htag | htag
    · exact hns htag
    · exact hwrapper htag
    · rw [htag] at haccepts
      cases haccepts
  exact Element.props_congr rfl (h.filter_eq names.contains (hnot _ (Or.inl rfl))
    (hnot _ (Or.inr (Or.inl rfl))) (fun tag htag => hnot tag (Or.inr (Or.inr htag))) _)

/-- Each declaration of a namespace itself can be left out; then its other declarations remain, and
the namespaces in it. -/
theorem exists_omits_declaredBy {before after : List Element}
    (h : es.flatMap (declaredBy kind) = before ++ d :: after) :
    ∃ es', Omits kind d es es' ∧ es'.flatMap (declaredBy kind) = before ++ after ∧
      (∀ k ≠ kind, es'.flatMap (declaredBy k) = es.flatMap (declaredBy k)) ∧
      es'.filter (·.tag == "ns") = es.filter (·.tag == "ns") := by
  induction es generalizing before with
  | nil => exact absurd h (by simp)
  | cons c es ih =>
    rw [List.flatMap_cons] at h
    rcases append_eq_append_cons h with ⟨rest, hc, rfl⟩ | ⟨rest, rfl, hes⟩
    · by_cases hw : c.tag = kind.wrapper
      · rw [declaredBy_of_wrapper hw] at hc
        obtain ⟨front, back, hchildren, rfl, hback⟩ := List.filter_eq_append_iff.mp hc
        obtain ⟨middle, last, rfl, hmiddle, hd, rfl⟩ := List.filter_eq_cons_iff.mp hback
        have hchildren : c.children = (front ++ middle) ++ d :: last := by simp [hchildren]
        refine ⟨_, .wrapped hw hd hchildren es, ?_, fun k hk => ?_, ?_⟩
        · have hw' : ({ c with children := front ++ middle ++ last } : Element).tag =
              kind.wrapper := hw
          rw [List.flatMap_cons, declaredBy_of_wrapper hw', List.filter_append,
            List.filter_append, List.filter_eq_nil_iff.mpr hmiddle, List.append_nil,
            List.append_assoc]
        · have hw' : ({ c with children := front ++ middle ++ last } : Element).tag =
              kind.wrapper := hw
          rw [List.flatMap_cons, List.flatMap_cons, declaredBy_of_wrapper_of_ne hw hk,
            declaredBy_of_wrapper_of_ne hw' hk]
        · have hns : kind.wrapper ≠ "ns" := kind.wrapper_ne_ns
          simp [hw, hns]
      · unfold declaredBy at hc
        rw [beq_false_of_ne hw] at hc
        by_cases hd : kind.accepts c.tag = true
        · rw [hd] at hc
          obtain ⟨rfl, hc⟩ | ⟨_, _, hc⟩ := List.append_eq_cons_iff.mp hc.symm
          · obtain ⟨rfl, rfl⟩ := List.cons_eq_cons.mp hc
            refine ⟨es, .here hd es, rfl, fun k hk => ?_, ?_⟩
            · rw [List.flatMap_cons, declaredBy_of_accepts_of_ne hd hk, List.nil_append]
            · have hns : c.tag ≠ "ns" := fun htag => by
                rw [htag, kind.accepts_ns] at hd
                cases hd
              simp [hns]
          · exact absurd hc (by simp)
        · rw [Bool.not_eq_true] at hd
          rw [hd] at hc
          exact absurd hc (by simp)
    · obtain ⟨es', homits, hown, hother, hns⟩ := ih hes
      refine ⟨c :: es', .later c homits, ?_, fun k hk => ?_, ?_⟩
      · rw [List.flatMap_cons, hown, List.append_assoc]
      · rw [List.flatMap_cons, List.flatMap_cons, hother k hk]
      · rw [List.filter_cons, List.filter_cons, hns]

end

/-! ### Turns of a namespace itself -/

namespace Population

variable {setting : Setting} {kind : DeclarationKind} {p q : Population} {e e' : Element}
  {es : List Element} {before after : List Turn} {t : Turn}

/-- Without a declaration that is rejected, those beside it have the same turns. -/
theorem turnsOf_of_fails (h : turnsOf setting kind p es = before ++ t :: after)
    (hfails : t.Fails) : t.kind = kind ∧ ∃ xs ys, es = xs ++ t.element :: ys ∧
      turnsOf setting kind p (xs ++ ys) = before ++ after ∧
      (Growth.forEach (kind.add setting) p (xs ++ ys)).population =
        (Growth.forEach (kind.add setting) p es).population := by
  induction es generalizing p before with
  | nil => exact absurd h (by simp [turnsOf])
  | cons e es ih =>
    rw [turnsOf, List.cons_eq_append_iff] at h
    rcases h with ⟨rfl, h⟩ | ⟨before, rfl, h⟩
    · obtain ⟨rfl, rfl⟩ := List.cons_eq_cons.mp h
      obtain ⟨err, herr⟩ := hfails
      have hsame : (Growth.ofPass p e.line (kind.add setting p e)).population = p :=
        Growth.population_ofPass_of_error herr e.line
      refine ⟨rfl, [], es, rfl, ?_, ?_⟩
      · rw [hsame]
        rfl
      · exact congrArg (fun q => (Growth.forEach (kind.add setting) q es).population) hsame.symm
    · obtain ⟨hkind, xs, ys, rfl, hturns, hpopulation⟩ := ih h
      refine ⟨hkind, e :: xs, ys, rfl, ?_, hpopulation⟩
      exact congrArg (List.cons _) hturns

theorem turnsOfKinds_congr (setting : Setting) {kinds : List DeclarationKind}
    (h : ∀ kind ∈ kinds, own kind e' = own kind e) (p : Population) :
    turnsOfKinds setting e' kinds p = turnsOfKinds setting e kinds p ∧
      ∀ properties, (addKinds setting properties e' kinds p).population =
        (addKinds setting properties e kinds p).population := by
  induction kinds generalizing p with
  | nil => exact ⟨rfl, fun _ => rfl⟩
  | cons kind kinds ih =>
    rw [List.forall_mem_cons] at h
    obtain ⟨hturns, hpopulation⟩ :=
      ih h.2 (Growth.forEach (kind.add setting) p (own kind e)).population
    rw [turnsOfKinds, turnsOfKinds, h.1, hturns]
    refine ⟨rfl, fun properties => ?_⟩
    rw [addKinds, addKinds, h.1]
    exact hpopulation properties

/-- Without a declaration that is rejected, those of all kinds have the same turns. -/
theorem turnsOfKinds_of_fails {kinds : List DeclarationKind} (hkinds : kinds.Nodup)
    (h : turnsOfKinds setting e kinds p = before ++ t :: after) (hfails : t.Fails) :
    t.kind ∈ kinds ∧ ∃ xs ys, own t.kind e = xs ++ t.element :: ys ∧
      ∀ e', own t.kind e' = xs ++ ys →
      (∀ k ≠ t.kind, own k e' = own k e) →
      turnsOfKinds setting e' kinds p = before ++ after ∧
        ∀ properties, (addKinds setting properties e' kinds p).population =
          (addKinds setting properties e kinds p).population := by
  induction kinds generalizing p before with
  | nil => exact absurd h (by simp [turnsOfKinds])
  | cons kind kinds ih =>
    obtain ⟨hkind, hkinds⟩ := List.nodup_cons.mp hkinds
    rw [turnsOfKinds] at h
    rcases append_eq_append_cons h with ⟨rest, hfirst, rfl⟩ | ⟨rest, rfl, hrest⟩
    · obtain ⟨rfl, xs, ys, hown, hturns, hpopulation⟩ := turnsOf_of_fails hfirst hfails
      refine ⟨List.mem_cons_self, xs, ys, hown, fun e' hown' hother => ?_⟩
      obtain ⟨hturns', hpopulation'⟩ := turnsOfKinds_congr setting
        (fun k hk => hother k fun heq => hkind (heq ▸ hk))
        (Growth.forEach (t.kind.add setting) p (own t.kind e)).population
      rw [turnsOfKinds, hown', hturns, hpopulation, hturns', List.append_assoc]
      refine ⟨rfl, fun properties => ?_⟩
      rw [addKinds, addKinds, hown']
      unfold Growth.andThen
      rw [hpopulation]
      exact hpopulation' properties
    · obtain ⟨hmem, xs, ys, hown, hleft⟩ := ih hkinds hrest
      have hne : kind ≠ t.kind := fun heq => hkind (heq ▸ hmem)
      refine ⟨List.mem_cons_of_mem _ hmem, xs, ys, hown, fun e' hown' hother => ?_⟩
      obtain ⟨hturns, hpopulation⟩ := hleft e' hown' hother
      rw [turnsOfKinds, hother kind hne, hturns, List.append_assoc]
      refine ⟨rfl, fun properties => ?_⟩
      rw [addKinds, addKinds, hother kind hne]
      exact hpopulation properties

/-! ### Turns of nested namespaces -/

/-- Only nested namespaces are gone into. -/
theorem addNamespaces_filter (setting : Setting) (p : Population) (es : List Element) :
    addNamespaces setting p (es.filter (·.tag == "ns")) = addNamespaces setting p es ∧
      nestedTurns setting p (es.filter (·.tag == "ns")) = nestedTurns setting p es := by
  induction es generalizing p with
  | nil => exact ⟨rfl, rfl⟩
  | cons e es ih =>
    by_cases hns : (e.tag == "ns") = true
    · rw [List.filter_cons, if_pos hns, addNamespaces, addNamespaces, nestedTurns, nestedTurns,
        if_pos hns, if_pos hns, (ih _).2]
      exact ⟨congrArg (Growth.andThen _) (funext fun q => (ih q).1), rfl⟩
    · rw [List.filter_cons, if_neg hns, (ih p).1, (ih p).2, addNamespaces, nestedTurns, if_neg hns,
        if_neg hns]
      exact ⟨rfl, rfl⟩

/-- A namespace is entered as its line and its properties say. -/
theorem readName_congr (hline : e'.line = e.line)
    (hprops : e'.props Namespace.properties = e.props Namespace.properties) :
    readName e' = readName e := by
  unfold readName
  rw [hprops, hline]

theorem entered?_congr (hline : e'.line = e.line)
    (hprops : e'.props Namespace.properties = e.props Namespace.properties) (setting : Setting)
    (p : Population) : entered? setting p e' = entered? setting p e := by
  unfold entered?
  rw [readName_congr hline hprops, hprops]

/-- What is put in for a namespace is what it is filled with once it is entered. -/
theorem population_addNested_congr (hline : e'.line = e.line)
    (hprops : e'.props Namespace.properties = e.props Namespace.properties)
    {fill fill' : Population → Growth}
    (hfill : ∀ q, entered? setting p e = some q → (fill' q).population = (fill q).population) :
    (addNested setting p e' fill').population = (addNested setting p e fill).population := by
  unfold entered? at hfill
  unfold addNested
  rw [readName_congr hline hprops, hprops]
  cases hread : (readName e).result with
  | error err => simp only [hread]
  | ok name =>
    cases hdescription : (e.props Namespace.properties).single "description" with
    | error err => simp only [hread]
    | ok description =>
      rw [hread, hdescription] at hfill
      simp only [hread]
      split_ifs <;> simp only [hfill _ rfl]

/-- The children are those of the element without a declaration, and its absence changes nothing:
the other declarations have the same turns, and the same population is reached. -/
structure SameWithout (setting : Setting) (p : Population) (e : Element) (t : Turn)
    (others : List Turn) (children : List Element) : Prop where
  omits : Omits t.kind t.element e.children children
  turns : turns setting p { e with children } = others
  population : ∀ properties, (add setting properties p { e with children }).population =
    (add setting properties p e).population

/-- A namespace without the declaration is entered as the one with it, and the same is put in. -/
theorem SameWithout.nested {n : Element} {others : List Turn} {children : List Element}
    (h : SameWithout setting q n t others children) (hentered : entered? setting p n = some q) :
    entered? setting p { n with children } = some q ∧
      (addNested setting p { n with children } fun q =>
        add setting Namespace.properties q { n with children }).population =
      (addNested setting p n fun q => add setting Namespace.properties q n).population := by
  have hline : ({ n with children } : Element).line = n.line := rfl
  have hprops := h.omits.props_eq propertiesOnly_namespace
  refine ⟨(entered?_congr hline hprops setting p).trans hentered, ?_⟩
  refine population_addNested_congr hline hprops fun r hr => ?_
  obtain rfl : q = r := Option.some.inj (hentered.symm.trans hr)
  exact h.population _

/-- Without a declaration that is rejected, those of nested namespaces have the same turns. -/
theorem nestedTurns_of_fails (hes : ∀ n ∈ es, ∀ {q : Population} {t : Turn} {before after},
      turns setting q n = before ++ t :: after → t.Fails →
        ∃ children, SameWithout setting q n t (before ++ after) children)
    (h : nestedTurns setting p es = before ++ t :: after) (hfails : t.Fails) :
    ∃ es', Omits t.kind t.element es es' ∧ nestedTurns setting p es' = before ++ after ∧
      (addNamespaces setting p es').population = (addNamespaces setting p es).population ∧
      ∀ kind, es'.flatMap (declaredBy kind) = es.flatMap (declaredBy kind) := by
  induction es generalizing p before with
  | nil => exact absurd h (by simp [nestedTurns])
  | cons n es ih =>
    rw [nestedTurns] at h
    rcases append_eq_append_cons h with ⟨rest, hfirst, rfl⟩ | ⟨rest, rfl, hrest⟩
    · split_ifs at hfirst with hns
      · cases hentered : entered? setting p n with
        | none =>
          rw [hentered] at hfirst
          exact absurd hfirst (by simp)
        | some q =>
          rw [hentered, Option.elim_some] at hfirst
          obtain ⟨ts, us, hturns, rfl, hus⟩ := List.map_eq_append_iff.mp hfirst
          obtain ⟨u, vs, rfl, rfl, rfl⟩ := List.map_eq_cons_iff.mp hus
          obtain ⟨children, hchildren⟩ := hes n List.mem_cons_self hturns hfails
          have hn : n.tag = "ns" := beq_iff_eq.mp hns
          obtain ⟨hentered', hadd⟩ := hchildren.nested hentered
          refine ⟨_, .nested hn hchildren.omits es, ?_, ?_, fun kind => ?_⟩
          · rw [nestedTurns, if_pos hns, if_pos hns, hentered', Option.elim_some,
              hchildren.turns, hadd, if_pos hns, List.map_append, List.append_assoc]
          · rw [addNamespaces, addNamespaces, if_pos hns, if_pos hns]
            unfold Growth.andThen
            rw [hadd]
          · rw [List.flatMap_cons, List.flatMap_cons, declaredBy_of_ns hn,
              declaredBy_of_ns (e := { n with children }) hn]
      · exact absurd hfirst (by simp)
    · obtain ⟨es', homits, hturns, hpopulation, hother⟩ :=
        ih (fun m hm => hes m (List.mem_cons_of_mem _ hm)) hrest
      refine ⟨n :: es', .later n homits, ?_, ?_, fun kind => ?_⟩
      · rw [nestedTurns, hturns, List.append_assoc]
      · rw [addNamespaces, addNamespaces]
        exact hpopulation
      · rw [List.flatMap_cons, List.flatMap_cons, hother]

/-- **A declaration that is rejected might as well be absent.** -/
theorem exists_sameWithout (h : turns setting p e = before ++ t :: after) (hfails : t.Fails) :
    ∃ children, SameWithout setting p e t (before ++ after) children := by
  induction e using Element.nested_induction generalizing p t before after with
  | step e ih =>
    obtain ⟨tag, attrs, children, text, line⟩ := e
    rw [turns] at h
    rcases append_eq_append_cons h with ⟨rest, hnested, rfl⟩ | ⟨rest, rfl, hown⟩
    · obtain ⟨children', homits, hturns, hpopulation, hother⟩ :=
        nestedTurns_of_fails (fun n hn => ih n hn) hnested hfails
      have hown : ∀ kind ∈ DeclarationKind.all, own kind ⟨tag, attrs, children', text, line⟩ =
          own kind ⟨tag, attrs, children, text, line⟩ := fun kind _ => hother kind
      obtain ⟨hkinds, hadd⟩ :=
        turnsOfKinds_congr setting hown (addNamespaces setting p children).population
      refine ⟨children', homits, ?_, fun properties => ?_⟩
      · rw [turns, hturns, hpopulation, hkinds, List.append_assoc]
      · rw [add, add]
        unfold Growth.andThen
        rw [hpopulation]
        exact hadd properties
    · obtain ⟨-, xs, ys, hdeclared, hleft⟩ :=
        turnsOfKinds_of_fails (by decide) hown hfails
      obtain ⟨children', homits, hown', hother, hns⟩ := exists_omits_declaredBy hdeclared
      have hsame (p : Population) : addNamespaces setting p children' =
            addNamespaces setting p children ∧
          nestedTurns setting p children' = nestedTurns setting p children := by
        obtain ⟨hadd, hturns⟩ := addNamespaces_filter setting p children
        obtain ⟨hadd', hturns'⟩ := addNamespaces_filter setting p children'
        rw [← hadd, ← hturns, ← hadd', ← hturns', hns]
        exact ⟨rfl, rfl⟩
      obtain ⟨hturns, hpopulation⟩ := hleft ⟨tag, attrs, children', text, line⟩ hown' hother
      refine ⟨children', homits, ?_, fun properties => ?_⟩
      · rw [turns, (hsame p).1, (hsame p).2, hturns, List.append_assoc]
      · rw [add, add, (hsame p).1]
        exact hpopulation properties

end Population

end WireSchema
