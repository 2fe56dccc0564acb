import WireSchema.Proofs.Namespace.Leftovers

/-! # What is left over in namespaces

What an element adds is made of parts: the content of nested namespaces, the turns of its
declarations, and the warnings about its other children. A growth has the findings of its parts, and
had no error only if they had none (`Growth.PartOf`). So if all of an element is added, each
namespace in it is visited (`exists_visit`), each declaration has its turn, and every stop that
reading comes to in this turn gives its warnings (`Visit.warned`). -/

namespace WireSchema

open Markup

/-! ### Parts of a growth -/

/-- What the first growth found, the second one found as well, and it had no error only if the first
one had none. -/
structure Growth.PartOf (g G : Growth) : Prop where
  findings : ∀ x ∈ g.findings, x ∈ G.findings
  ok : G.ok = true → g.ok = true

namespace Growth.PartOf

variable {g h G : Growth} {step : Population → Growth}

theorem refl (g : Growth) : g.PartOf g := ⟨fun _ hx => hx, id⟩

theorem trans (hg : g.PartOf h) (hh : h.PartOf G) : g.PartOf G :=
  ⟨fun x hx => hh.findings x (hg.findings x hx), fun hok => hg.ok (hh.ok hok)⟩

theorem left (g : Growth) (step : Population → Growth) : g.PartOf (g.andThen step) :=
  ⟨fun _ hx => List.mem_append_left _ hx, fun hok => (Bool.and_eq_true_iff.mp hok).1⟩

theorem right (g : Growth) (step : Population → Growth) :
    (step g.population).PartOf (g.andThen step) :=
  ⟨fun _ hx => List.mem_append_right _ hx, fun hok => (Bool.and_eq_true_iff.mp hok).2⟩

/-- A pass that is part of a growth without an error has ended with a value. -/
theorem exists_endsWithin {p : Population} {line : Nat} {pass : Pass Population}
    (h : (Growth.ofPass p line pass).PartOf G) (hok : G.ok = true) :
    ∃ q, pass.EndsWithin (· ∈ G.findings) q := by
  have hsome := h.ok hok
  have hfindings := h.findings
  unfold Growth.ofPass Pass.settle at hsome hfindings
  cases hr : pass.result with
  | error err => simp [hr] at hsome
  | ok q => exact ⟨q, hr, by simpa [hr] using hfindings⟩

end Growth.PartOf

/-! ### Turns -/

/-- What becomes of the population in the turn. -/
def Turn.growth (t : Turn) : Growth :=
  .ofPass t.population t.element.line (t.kind.add t.setting t.population t.element)

/-- The declaration has one of the turns, and it is part of the growth. -/
def Growth.Takes (G : Growth) (ts : List Turn) (kind : DeclarationKind) (d : Element) : Prop :=
  ∃ t ∈ ts, t.kind = kind ∧ t.element = d ∧ t.growth.PartOf G

theorem Growth.Takes.mono {g G : Growth} {ts us : List Turn} {kind : DeclarationKind} {d : Element}
    (h : g.Takes ts kind d) (hts : ∀ t ∈ ts, t ∈ us) (hg : g.PartOf G) : G.Takes us kind d := by
  obtain ⟨t, ht, hkind, helement, hpart⟩ := h
  exact ⟨t, hts t ht, hkind, helement, hpart.trans hg⟩

/-- **A declaration that is taken without an error** has each stop read that reading comes to. -/
theorem Growth.Takes.warned {G : Growth} {ts : List Turn} {kind : DeclarationKind} {d : Element}
    (h : G.Takes ts kind d) (hok : G.ok = true) : ∃ t ∈ ts, t.kind = kind ∧ t.element = d ∧
      ∀ s, Relation.ReflTransGen t.context.Leads ⟨kind.place, d⟩ s →
        ∃ e, t.context.ReadsAs s e ∧
          Warned (· ∈ G.findings) (s.place.leftovers s.element ++ s.place.leftovers e) := by
  obtain ⟨t, ht, rfl, rfl, hpart⟩ := h
  obtain ⟨q, hadd⟩ := hpart.exists_endsWithin hok
  refine ⟨t, ht, rfl, rfl, fun s hs => ?_⟩
  obtain ⟨e, hreads, hread⟩ := passes_of_reaches (DeclarationKind.passes_of_add hadd) hs
  refine ⟨e, hreads, fun w hw => ?_⟩
  rcases List.mem_append.mp hw with hw | hw
  · exact hread.warned w (leftovers_subset_of_readsAs hreads hw)
  · exact hread.warned w hw

/-! ### Children of a namespace -/

/-- The children that are neither declarations, wrappers or properties of a namespace, nor have one
of the other tags. -/
def childLeftovers (properties others : List String) (e : Element) : List (Nat × Warning) :=
  (e.children.filter fun c => !(Namespace.childTags.contains c.tag || isFieldTag c.tag ||
    c.isPropertyChild properties || others.contains c.tag)).map
    fun c => (c.line, .unexpectedChild e.tag c.tag)

/-- The element has a nested namespace among its children. -/
def Markup.Element.HasNamespace (e c : Element) : Prop := c ∈ e.children ∧ c.tag = "ns"

namespace Population

variable {setting : Setting} {p q : Population} {e n : Element} {G : Growth} {ts : List Turn}
  {properties : List String} {kind : DeclarationKind}

theorem unknownChildren_eq (scope : Namespace) (properties : List String) (e : Element) :
    unknownChildren scope properties e =
      childLeftovers properties (if scope.name.isEmpty then ["platforms"] else []) e := by
  unfold unknownChildren childLeftovers
  cases scope.name.isEmpty <;> simp [beq_eq_decide]

theorem takes_forEach (setting : Setting) (kind : DeclarationKind) (p : Population)
    {es : List Element} (he : e ∈ es) :
    (Growth.forEach (kind.add setting) p es).Takes (turnsOf setting kind p es) kind e := by
  induction es generalizing p with
  | nil => exact absurd he List.not_mem_nil
  | cons d ds ih =>
    rw [Growth.forEach, turnsOf]
    rcases List.mem_cons.mp he with rfl | he
    · exact ⟨_, List.mem_cons_self, rfl, rfl, .left _ _⟩
    · exact (ih _ he).mono (fun t ht => List.mem_cons_of_mem _ ht)
        (.right _ fun p => .forEach (kind.add setting) p ds)

theorem takes_addKinds (properties : List String) {kinds : List DeclarationKind}
    (hkind : kind ∈ kinds) {d : Element} (hd : d ∈ own kind e) (p : Population) :
    (addKinds setting properties e kinds p).Takes (turnsOfKinds setting e kinds p) kind d := by
  induction kinds generalizing p with
  | nil => exact absurd hkind List.not_mem_nil
  | cons k ks ih =>
    rw [addKinds, turnsOfKinds]
    rcases List.mem_cons.mp hkind with rfl | hkind
    · exact (takes_forEach setting kind p hd).mono (fun t ht => List.mem_append_left _ ht)
        (.left _ _)
    · exact (ih hkind _).mono (fun t ht => List.mem_append_right _ ht) (.right _ _)

/-- **A declaration of an element has its turn.** -/
theorem takes_add (setting : Setting) (properties : List String) (p : Population) {d : Element}
    (hd : d ∈ own kind e) :
    (add setting properties p e).Takes (turns setting p e) kind d := by
  obtain ⟨tag, attrs, children, text, line⟩ := e
  rw [turns, add]
  exact (takes_addKinds properties kind.mem_all hd _).mono
    (fun t ht => List.mem_append_right _ ht) (.right _ _)

theorem warned_addKinds (setting : Setting) (properties : List String) (e : Element)
    (kinds : List DeclarationKind) (p : Population) :
    Warned (· ∈ (addKinds setting properties e kinds p).findings)
      (unknownChildren p.scope properties e) := by
  induction kinds generalizing p with
  | nil => exact fun w hw => List.mem_map_of_mem hw
  | cons kind kinds ih =>
    have hgrows := (extends_law setting).forEach ((extends_law setting).declaration kind)
      (own kind e) p
    have hrest := ih (Growth.forEach (kind.add setting) p (own kind e)).population
    rw [unknownChildren_eq, hgrows.name, ← unknownChildren_eq] at hrest
    exact fun w hw => (Growth.PartOf.right _ _).findings _ (hrest w hw)

/-- **The children that a namespace does not understand are found.** -/
theorem warned_add (setting : Setting) (properties : List String) (p : Population) (e : Element) :
    Warned (· ∈ (add setting properties p e).findings)
      (childLeftovers properties (if p.scope.name.isEmpty then ["platforms"] else []) e) := by
  obtain ⟨tag, attrs, children, text, line⟩ := e
  have hgrows : Extends p (addNamespaces setting p children).population :=
    (extends_law setting).addNamespaces (fun e _ properties p => extends_add setting properties p e) p
  have hown := warned_addKinds setting properties ⟨tag, attrs, children, text, line⟩
    DeclarationKind.all (addNamespaces setting p children).population
  rw [unknownChildren_eq, hgrows.name] at hown
  rw [add]
  exact fun w hw => (Growth.PartOf.right _ _).findings _ (hown w hw)

theorem warned_readName {F : Finding → Prop} {name : String}
    (h : (readName e).EndsWithin F name) :
    Warned F (strangeProperties "ns" Namespace.properties e) := by
  obtain ⟨name', -, h⟩ := Pass.endsWithin_bind.mp h
  obtain ⟨_, -, h⟩ := Pass.endsWithin_bind.mp h
  obtain ⟨_, hwarn, -⟩ := Pass.endsWithin_bind.mp h
  exact Pass.endsWithin_warnAll.mp hwarn

/-! ### Namespaces in an element -/

/-- In a growth the content of an element was added to the population, and its declarations had
their turns. -/
structure Visit (setting : Setting) (G : Growth) (ts : List Turn) (properties : List String)
    (q : Population) (n : Element) : Prop where
  part : (add setting properties q n).PartOf G
  turns : ∀ t ∈ turns setting q n, ∃ t' ∈ ts, t'.toAttempt = t.toAttempt ∧ t'.kind = t.kind

theorem Visit.self (setting : Setting) (properties : List String) (p : Population) (e : Element) :
    Visit setting (add setting properties p e) (Population.turns setting p e) properties p e :=
  ⟨.refl _, fun t ht => ⟨t, ht, rfl, rfl⟩⟩

/-- The declarations of an element that is visited have their turns. -/
theorem Visit.takes (h : Visit setting G ts properties q n) {d : Element} (hd : d ∈ own kind n) :
    G.Takes ts kind d := by
  obtain ⟨t, ht, hkind, helement, hpart⟩ := takes_add setting properties q hd
  obtain ⟨t', ht', hattempt, hkind'⟩ := h.turns t ht
  have hgrowth : t'.growth = t.growth := by
    unfold Turn.growth
    rw [hattempt, hkind']
  refine ⟨t', ht', hkind'.trans hkind, ?_, hgrowth ▸ hpart.trans h.part⟩
  rw [hattempt, helement]

theorem exists_addNested (setting : Setting) {es : List Element} {c : Element} (hc : c ∈ es)
    (htag : c.tag = "ns") (p : Population) : ∃ q,
      (addNested setting q c fun r => add setting Namespace.properties r c).PartOf
        (addNamespaces setting p es) ∧
      ∀ r, entered? setting q c = some r → ∀ t ∈ Population.turns setting r c,
        t.within r.scope.name ∈ nestedTurns setting p es := by
  induction es generalizing p with
  | nil => exact absurd hc List.not_mem_nil
  | cons d ds ih =>
    rw [addNamespaces, nestedTurns]
    rcases List.mem_cons.mp hc with rfl | hc
    · refine ⟨p, ?_, fun r hr t ht => List.mem_append_left _ ?_⟩
      · rw [if_pos (beq_iff_eq.mpr htag)]
        exact .left _ _
      · rw [if_pos (beq_iff_eq.mpr htag), hr, Option.elim_some]
        exact List.mem_map_of_mem ht
    · obtain ⟨q, hpart, hturns⟩ := ih hc _
      exact ⟨q, hpart.trans (.right _ fun p => addNamespaces setting p ds),
        fun r hr t ht => List.mem_append_right _ (hturns r hr t ht)⟩

/-- A nested namespace that is added without an error is entered. -/
theorem exists_entered (h : (addNested setting p e fun r =>
      add setting Namespace.properties r e).ok = true) :
    ∃ q name, entered? setting p e = some q ∧ q.scope.name ≠ "" ∧
      (add setting Namespace.properties q e).PartOf
        (addNested setting p e fun r => add setting Namespace.properties r e) ∧
      (readName e).EndsWithin (· ∈ (addNested setting p e fun r =>
        add setting Namespace.properties r e).findings) name := by
  unfold entered? addNested at *
  cases hname : (readName e).result with
  | error err => simp [hname] at h
  | ok name =>
    have hvalid := isName_of_readName hname
    cases hdescription : (e.props Namespace.properties).single "description" with
    | error err => simp [hname, hdescription] at h
    | ok description =>
      simp only [hname, hdescription] at h ⊢
      split_ifs at h ⊢ with hok
      refine ⟨_, name, rfl, ?_, ⟨fun x hx => List.mem_append_right _ hx, fun _ => hok⟩, hname,
        fun x hx => List.mem_append_left _ hx⟩
      rintro hempty
      rw [name_nested] at hempty
      rw [hempty] at hvalid
      exact absurd hvalid (by decide)

/-- **A namespace inside of one that is visited is visited.** -/
theorem Visit.nested {m : Element} (h : Visit setting G ts properties q m) (hok : G.ok = true)
    (hn : m.HasNamespace n) : ∃ r name, Visit setting G ts Namespace.properties r n ∧
      r.scope.name ≠ "" ∧ (readName n).EndsWithin (· ∈ G.findings) name := by
  obtain ⟨tag, attrs, children, text, line⟩ := m
  obtain ⟨p, hpart, hturns⟩ := exists_addNested setting hn.1 hn.2 q
  have hadd := h.part
  rw [add] at hadd
  have hnested := hpart.trans ((Growth.PartOf.left _ _).trans hadd)
  obtain ⟨r, name, hr, hne, hcontent, hname⟩ := exists_entered (hnested.ok hok)
  refine ⟨r, name, ⟨hcontent.trans hnested, fun t ht => ?_⟩, hne, hname.1,
    fun x hx => hnested.findings x (hname.2 x hx)⟩
  have hmem : t.within r.scope.name ∈
      Population.turns setting q ⟨tag, attrs, children, text, line⟩ := by
    rw [Population.turns]
    exact List.mem_append_left _ (hturns r hr t ht)
  obtain ⟨t', ht', hattempt, hkind⟩ := h.turns _ hmem
  exact ⟨t', ht', hattempt, hkind⟩

/-- **Each namespace in an element is visited** if all of the element is added. -/
theorem exists_visit (hok : (add setting properties p e).ok = true)
    (hn : Relation.TransGen Element.HasNamespace e n) : ∃ r name,
      Visit setting (add setting properties p e) (Population.turns setting p e)
        Namespace.properties r n ∧
      r.scope.name ≠ "" ∧ (readName n).EndsWithin (· ∈ (add setting properties p e).findings) name := by
  -- from the root inwards: the visit of a namespace leads to those inside of it
  induction hn with
  | single hn => exact (Visit.self setting properties p e).nested hok hn
  | tail _ hn ih =>
    obtain ⟨_, _, hvisit, -⟩ := ih
    exact hvisit.nested hok hn

end Population

end WireSchema
