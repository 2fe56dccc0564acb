import WireSchema.Proofs.Namespace.Content
import WireSchema.Proofs.Namespace.Refusals

/-! # What populations gain

Where nothing is reused, adding an element lets just the declarations of its content enter the lists
of their namespaces, one after the other, and refuses those of them whose name is taken by then
(`Population.gains_add`). -/

namespace WireSchema

open Markup

namespace Population

variable {setting : Setting} {p q r : Population} {c d : Content} {ts us : List Turn}

/-- The declarations of the kind in the namespace that names lead to. -/
def entries (p : Population) (names : List String) (kind : DeclarationKind) : List Entry :=
  ((p.scope.named? names).map fun n => n.entries p.catalogue.arena kind).getD []

/-- The description of the namespace that names lead to. -/
def description? (p : Population) (names : List String) : Option String :=
  (p.scope.named? names).map Namespace.description

/-- `q` is `p` with the content: the declarations have entered the lists of their namespaces in
turn, and those turns were refused whose name was taken. -/
structure Gains (setting : Setting) (p : Population) (content : Content) (turns : List Turn)
    (q : Population) : Prop where
  grows : Extends p q
  tidy : Keeps Namespace.Tidy p q
  entries : p.Arranged → ∀ names kind, q.entries names kind =
    (content.declarations names kind).foldl
      (enter (setting.reader (names.foldl qualify p.scope.externalRef) kind)) (p.entries names kind)
  description : p.Arranged → ∀ names, q.description? names =
    (content.openings names).foldl describe (p.description? names)
  repeated : p.Arranged → ∀ names kind, Turn.repeatsAt names kind turns =
    repeated (setting.reader (names.foldl qualify p.scope.externalRef) kind)
      (p.entries names kind) (content.declarations names kind)

namespace Gains

theorem congr (h : Gains setting p c ts q)
    (hdeclarations : ∀ names kind, d.declarations names kind = c.declarations names kind)
    (hopenings : ∀ names, d.openings names = c.openings names) : Gains setting p d ts q := by
  refine ⟨h.grows, h.tidy, fun hp names kind => ?_, fun hp names => ?_, fun hp names kind => ?_⟩
  · rw [hdeclarations]
    exact h.entries hp names kind
  · rw [hopenings]
    exact h.description hp names
  · rw [hdeclarations]
    exact h.repeated hp names kind

theorem refl (setting : Setting) (p : Population) : Gains setting p .none [] p :=
  ⟨.refl p, id, fun _ _ _ => rfl, fun _ _ => rfl, fun _ _ _ => rfl⟩

theorem trans (hpq : Gains setting p c ts q) (hqr : Gains setting q d us r) :
    Gains setting p (c.append d) (ts ++ us) r := by
  have hq (hp : p.Arranged) : q.Arranged := hp.extend hpq.grows hpq.tidy
  have href := hpq.grows.externalRef
  refine ⟨hpq.grows.trans hqr.grows, fun h => hqr.tidy (hpq.tidy h), fun hp names kind => ?_,
    fun hp names => ?_, fun hp names kind => ?_⟩
  · have h := hqr.entries (hq hp) names kind
    rw [hpq.entries hp, href] at h
    rw [Content.append, List.foldl_append]
    exact h
  · have h := hqr.description (hq hp) names
    rw [hpq.description hp] at h
    rw [Content.append, List.foldl_append]
    exact h
  · have h := hqr.repeated (hq hp) names kind
    rw [hpq.entries hp, href] at h
    rw [Turn.repeatsAt_append, hpq.repeated hp, h, Content.append, repeated_append]

end Gains

end Population

/-! ### The steps -/

namespace Population

variable {setting : Setting} {p q : Population} {e : Element} {kind : DeclarationKind}

theorem reader_eq (he : e.ReuseFree) (htag : kind.accepts e.tag = true) :
    setting.reader p.scope.externalRef kind e =
      (kind.read (p.context setting) e).result.toOption := by
  have hread : SameValue (kind.read (p.context setting) e).result
      (kind.read { p.context setting with bases := [] } e).result :=
    DeclarationKind.sameValue_read [] he htag
  exact Eq.symm hread

/-- Nested namespaces that stay as they are have the same entries in a larger arena. -/
theorem entries_cons_congr (hp : p.Arranged) (hgrows : Extends p q)
    (hnamespaces : q.scope.namespaces = p.scope.namespaces) (name : String) (names : List String)
    (kind : DeclarationKind) : q.entries (name :: names) kind = p.entries (name :: names) kind := by
  unfold entries
  rw [Namespace.named?_of_namespaces hnamespaces]
  cases hat : p.scope.named? (name :: names) with
  | none => rfl
  | some n =>
    exact n.entries_mono (hp.orderly n (Namespace.within_of_named? hat)) hgrows.kept kind

theorem description?_congr (hdescription : q.scope.description = p.scope.description)
    (hnamespaces : q.scope.namespaces = p.scope.namespaces) (names : List String) :
    q.description? names = p.description? names := by
  unfold description?
  cases names with
  | nil => exact congrArg some hdescription
  | cons name names => rw [Namespace.named?_of_namespaces hnamespaces]

/-- What the turn of a declaration changes in the namespace itself. -/
structure Turned (setting : Setting) (kind : DeclarationKind) (e : Element) (p q : Population) :
    Prop where
  own : q.ownEntries kind =
    enter (setting.reader p.scope.externalRef kind) (p.ownEntries kind) e
  others : ∀ k, k ≠ kind → q.ownEntries k = p.ownEntries k
  namespaces : q.scope.namespaces = p.scope.namespaces
  description : q.scope.description = p.scope.description
  isRepeat : (⟨⟨setting, p, e⟩, [], kind⟩ : Turn).isRepeat =
    isTaken (setting.reader p.scope.externalRef kind) (p.ownEntries kind) e

theorem turned (setting : Setting) (hp : p.Arranged) (he : e.ReuseFree)
    (htag : kind.accepts e.tag = true) :
    Turned setting kind e p (Growth.ofPass p e.line (kind.add setting p e)).population := by
  have houtcome := outcome_add setting e hp kind
  have hreader : setting.reader p.scope.externalRef kind e =
      (kind.read (p.context setting) e).result.toOption := reader_eq he htag
  have hrepeat : (⟨⟨setting, p, e⟩, [], kind⟩ : Turn).isRepeat =
      ((kind.read (p.context setting) e).result.isOk &&
        !(kind.add setting p e).result.isOk) := rfl
  generalize hread : (kind.read (p.context setting) e).result = r at houtcome hreader hrepeat
  generalize hadd : (kind.add setting p e).result = a at houtcome hrepeat
  cases houtcome with
  | unread failure failure' =>
    rw [Growth.population_ofPass_of_error hadd]
    refine ⟨(enter_of_unread hreader).symm, fun _ _ => rfl, rfl, rfl, ?_⟩
    rw [hrepeat, isTaken_of_unread hreader]
    rfl
  | @refused d h =>
    rw [Growth.population_ofPass_of_error hadd]
    refine ⟨?_, fun _ _ => rfl, rfl, rfl, ?_⟩
    · rw [enter_of_read hreader, h, Option.getD_none]
    · rw [hrepeat, isTaken_of_read hreader, h]
      rfl
  | @placed d q h =>
    rw [Growth.population_ofPass_of_ok hadd]
    refine ⟨?_, h.others, h.namespaces, h.description, ?_⟩
    · rw [enter_of_read hreader, h.own, Option.getD_some]
    · rw [hrepeat, isTaken_of_read hreader, h.own]
      rfl

namespace Turned

variable (h : Turned setting kind e p q)
include h

theorem entries (hp : p.Arranged) (hgrows : Extends p q) (names : List String)
    (k : DeclarationKind) : q.entries names k =
      ((Content.ofKind kind [e]).declarations names k).foldl
        (enter (setting.reader (names.foldl qualify p.scope.externalRef) k))
        (p.entries names k) := by
  cases names with
  | nil =>
    by_cases hk : k = kind
    · subst hk
      rw [Content.declarations_ofKind_self]
      exact h.own
    · rw [Content.declarations_ofKind_of_not fun h => hk h.2]
      exact h.others k hk
  | cons name names => exact entries_cons_congr hp hgrows h.namespaces name names k

theorem repeatsAt (names : List String) (k : DeclarationKind) :
    Turn.repeatsAt names k [⟨⟨setting, p, e⟩, [], kind⟩] =
      repeated (setting.reader (names.foldl qualify p.scope.externalRef) k) (p.entries names k)
        ((Content.ofKind kind [e]).declarations names k) := by
  have hisAt : (⟨⟨setting, p, e⟩, [], kind⟩ : Turn).isAt names k =
      decide (names = [] ∧ k = kind) := by
    unfold Turn.isAt
    rw [Bool.eq_iff_iff, Bool.and_eq_true, beq_iff_eq, beq_iff_eq, decide_eq_true_iff]
    exact and_congr eq_comm eq_comm
  rw [Turn.repeatsAt, List.filter_cons, List.filter_nil, hisAt]
  by_cases hat : names = [] ∧ k = kind
  · obtain ⟨hnames, hk⟩ := hat
    subst hnames hk
    rw [Content.declarations_ofKind_self, repeated_singleton, h.isRepeat, List.foldl_nil]
    simp only [and_self, decide_true, Bool.true_and]
    change _ = if isTaken _ (p.ownEntries k) e = true then _ else _
    split_ifs <;> rfl
  · rw [Content.declarations_ofKind_of_not hat, decide_eq_false hat]
    rfl

end Turned

theorem gains_declaration (setting : Setting) (p : Population) (he : e.ReuseFree)
    (htag : kind.accepts e.tag = true) :
    Gains setting p (.ofKind kind [e]) [⟨⟨setting, p, e⟩, [], kind⟩]
      (Growth.ofPass p e.line (kind.add setting p e)).population := by
  have hgrows := (extends_law setting).declaration kind p e
  have htidy := (keeps_law setting (Namespace.upkeep_tidy _)).declaration kind p e
  have hturned (hp : p.Arranged) := turned setting hp he htag
  exact ⟨hgrows, htidy, fun hp => (hturned hp).entries hp hgrows,
    fun hp => description?_congr (hturned hp).description (hturned hp).namespaces,
    fun hp => (hturned hp).repeatsAt⟩

theorem gains_forEach (setting : Setting) (es : List Element) (he : ∀ e ∈ es, e.ReuseFree)
    (htag : ∀ e ∈ es, kind.accepts e.tag = true) (p : Population) :
    Gains setting p (.ofKind kind es) (turnsOf setting kind p es)
      (Growth.forEach (kind.add setting) p es).population := by
  induction es generalizing p with
  | nil => exact (Gains.refl setting p).congr (fun _ _ => ite_self _) fun _ => rfl
  | cons e es ih =>
    have hfirst := gains_declaration setting p (he e List.mem_cons_self)
      (htag e List.mem_cons_self)
    have hrest := fun p => ih (fun c hc => he c (List.mem_cons_of_mem _ hc))
      (fun c hc => htag c (List.mem_cons_of_mem _ hc)) p
    refine (hfirst.trans (hrest _)).congr (fun names k => ?_) fun _ => rfl
    unfold Content.append Content.ofKind
    dsimp only
    split_ifs <;> rfl

/-- Only wrapped and direct children with an accepted tag are declarations. -/
theorem mem_own {c : Element} (h : c ∈ own kind e) :
    kind.accepts c.tag = true ∧ (e.ReuseFree → c.ReuseFree) := by
  obtain ⟨d, hd, hc⟩ := List.mem_flatMap.mp h
  split_ifs at hc with hwrapper haccepts
  · obtain ⟨hc, htag⟩ := List.mem_filter.mp hc
    exact ⟨htag, fun he => (he.of_mem hd).of_mem hc⟩
  · obtain rfl := List.mem_singleton.mp hc
    exact ⟨haccepts, fun he => he.of_mem hd⟩
  · exact absurd hc List.not_mem_nil

/-- The content of an element, except for nested namespaces. -/
def ownContent (e : Element) (kinds : List DeclarationKind) : Content :=
  ⟨fun names kind => if names = [] ∧ kind ∈ kinds then own kind e else [], fun _ => []⟩

theorem gains_addKinds (setting : Setting) (he : e.ReuseFree) (properties : List String)
    (kinds : List DeclarationKind) (hkinds : kinds.Nodup) (p : Population) :
    Gains setting p (ownContent e kinds) (turnsOfKinds setting e kinds p)
      (addKinds setting properties e kinds p).population := by
  induction kinds generalizing p with
  | nil =>
    exact (Gains.refl setting p).congr (fun names kind => if_neg fun h => List.not_mem_nil h.2)
      fun _ => rfl
  | cons kind kinds ih =>
    obtain ⟨hkind, hrest⟩ := List.nodup_cons.mp hkinds
    have hfirst := gains_forEach setting (own kind e) (fun c hc => (mem_own hc).2 he)
      (fun c hc => (mem_own hc).1) p
    refine (hfirst.trans (ih hrest _)).congr (fun names k => ?_) fun _ => rfl
    unfold Content.append Content.ofKind ownContent
    dsimp only
    by_cases hk : k = kind
    · subst hk
      simp [hkind]
    · simp [hk]

/-! ### Nested namespaces -/

section nested
variable {name : String}

/-- A nested namespace has the entries that names lead to through it. -/
theorem entries_nested (description : String) (names : List String) (kind : DeclarationKind) :
    (⟨{ p.nested setting name with description }, p.catalogue⟩ : Population).entries names kind =
      p.entries (name :: names) kind := by
  have hown (c : Namespace) :
      (⟨{ c with description }, p.catalogue⟩ : Population).entries names kind =
        ((c.named? names).map fun n => n.entries p.catalogue.arena kind).getD [] := by
    cases names with
    | nil => cases kind <;> rfl
    | cons first rest => rfl
  rw [hown, entries, Namespace.named?, nested]
  cases p.scope.child? name with
  | some c => rfl
  | none =>
    cases names with
    | nil => cases kind <;> rfl
    | cons first rest => rfl

theorem description?_nested (description : String) (first : String) (rest : List String) :
    (⟨{ p.nested setting name with description }, p.catalogue⟩ : Population).description?
      (first :: rest) = p.description? (name :: first :: rest) := by
  have hown (c : Namespace) : (⟨{ c with description }, p.catalogue⟩ : Population).description?
      (first :: rest) = (c.named? (first :: rest)).map Namespace.description := rfl
  have hat : p.scope.named? (name :: first :: rest) =
      (p.scope.child? name).bind fun c => c.named? (first :: rest) := rfl
  rw [hown, description?, hat, nested]
  cases p.scope.child? name <;> rfl

theorem describe_nested (setting : Setting) (given : Option String) :
    some (given.getD (p.nested setting name).description) =
      describe (p.description? [name]) given := by
  have hat : p.description? [name] = (p.scope.child? name).map Namespace.description := by
    unfold description?
    rw [Namespace.named?]
    cases p.scope.child? name <;> rfl
  rw [hat, describe, nested]
  cases p.scope.child? name <;> rfl

theorem child?_putNested (scope : Namespace) (catalogue : Catalogue) (key : String) :
    (p.putNested scope catalogue).scope.child? key =
      if scope.name = key then some scope else p.scope.child? key :=
  findNamed?_putNamed _ _ _

theorem entries_putNested (hp : p.Arranged) (hgrows : Extends p (p.putNested q.scope q.catalogue))
    (first : String) (rest : List String) (kind : DeclarationKind) :
    (p.putNested q.scope q.catalogue).entries (first :: rest) kind =
      if q.scope.name = first then q.entries rest kind else p.entries (first :: rest) kind := by
  unfold entries
  rw [Namespace.named?, child?_putNested]
  split_ifs with hname
  · rfl
  · rw [← Namespace.named?]
    cases hat : p.scope.named? (first :: rest) with
    | none => rfl
    | some n =>
      exact n.entries_mono (hp.orderly n (Namespace.within_of_named? hat)) hgrows.kept kind

theorem description?_putNested (first : String) (rest : List String) :
    (p.putNested q.scope q.catalogue).description? (first :: rest) =
      if q.scope.name = first then q.description? rest else p.description? (first :: rest) := by
  unfold description?
  rw [Namespace.named?, child?_putNested]
  split_ifs <;> rfl

/-- **What a nested namespace gains is gained through its name.** -/
theorem Gains.putNested {given : Option String} (hname : Literal.isName name = true)
    (h : Gains setting ⟨{ p.nested setting name with
      description := given.getD (p.nested setting name).description }, p.catalogue⟩ c ts q) :
    Gains setting p (c.within name given) (ts.map (.within name))
      (p.putNested q.scope q.catalogue) := by
  have hsame : Extends ⟨p.nested setting name, p.catalogue⟩
      ⟨{ p.nested setting name with
        description := given.getD (p.nested setting name).description }, p.catalogue⟩ :=
    .of_same rfl rfl rfl rfl rfl
  have hgrows := extends_putNested hname (hsame.trans h.grows)
  have hnested (hp : p.Arranged) := arranged_nested setting hp name
    (given.getD (p.nested setting name).description)
  have hscope : q.scope.name = name :=
    h.grows.name.trans (name_nested setting p name)
  have href (hp : p.Arranged) :
      (p.nested setting name).externalRef = qualify p.scope.externalRef name :=
    externalRef_nested hp.orderly
  refine ⟨hgrows, fun htidy => ?_, fun hp names kind => ?_, fun hp names => ?_,
    fun hp names kind => ?_⟩
  · have hupkeep := Namespace.upkeep_tidy setting.version
    refine everywhere_putNested hupkeep htidy (h.tidy ?_)
    exact (everywhere_nested hupkeep htidy).of_own rfl fun hown =>
      hown.congr rfl rfl rfl rfl
  · cases names with
    | nil =>
      exact p.scope.entries_mono (Namespace.allOrderly_iff.mp hp.orderly).1 hgrows.kept kind
    | cons first rest =>
      rw [entries_putNested hp hgrows, hscope, Content.within]
      dsimp only
      split_ifs with hfirst
      · subst hfirst
        rw [h.entries (hnested hp), entries_nested, List.foldl_cons, href hp]
      · rfl
  · cases names with
    | nil => rfl
    | cons first rest =>
      rw [description?_putNested, hscope, Content.within]
      dsimp only
      split_ifs with hfirst hrest
      · subst hfirst hrest
        rw [h.description (hnested hp), List.foldl_append, List.foldl_cons, List.foldl_nil,
          ← describe_nested setting]
        rfl
      · subst hfirst
        obtain ⟨second, rest, rfl⟩ := List.exists_cons_of_ne_nil hrest
        rw [h.description (hnested hp), description?_nested, List.nil_append]
      · rfl
  · cases names with
    | nil =>
      rw [Turn.repeatsAt_nil_within]
      rfl
    | cons first rest =>
      rw [Turn.repeatsAt_cons_within, Content.within]
      dsimp only
      split_ifs with hfirst
      · subst hfirst
        rw [h.repeated (hnested hp), entries_nested, List.foldl_cons, href hp]
      · rfl

end nested

end Population

/-! ### Elements -/

namespace Population

variable {setting : Setting} {p : Population} {e : Element}

/-- The description that an element gives of the namespace that it declares. -/
def givenDescription (e : Element) : Option String :=
  ((e.props Namespace.properties).single "description").toOption.join

/-- The content that is taken: none of it, if the description cannot be read. -/
def takenContent (e : Element) : Content :=
  if ((e.props Namespace.properties).single "description").isOk then .ofChildren e.children
  else .none

/-- An element whose name cannot be read has no content for a namespace. -/
theorem Gains.ofUnnamed {failure : Failure} (hname : (readName e).result = .error failure) :
    Gains setting p (.ofNested [e]) [] p := by
  have henters (first : String) : enters first e = false := by
    unfold enters enteredName?
    rw [hname]
    exact Bool.and_false _
  have hopening (first : String) : opening? first e = none := by
    unfold opening?
    rw [hname]
    exact if_neg (by simp [Except.toOption])
  refine (Gains.refl setting p).congr (fun names kind => ?_) fun names => ?_
  · cases names with
    | nil => rfl
    | cons first rest => simp [Content.ofNested, declarationsAt, henters, Content.none]
  · cases names with
    | nil => rfl
    | cons first rest => simp [Content.ofNested, openingsAt, henters, hopening, Content.none]

/-- What is gained through the name of a namespace is the content of the element that declares
it. -/
theorem Gains.ofNested {name : String} {ts : List Turn} {q : Population}
    (htag : (e.tag == "ns") = true) (hname : (readName e).result = .ok name)
    (h : Gains setting p ((takenContent e).within name (givenDescription e)) ts q) :
    Gains setting p (.ofNested [e]) ts q := by
  have henters (first : String) : enters first e =
      (decide (name = first) &&
        ((e.props Namespace.properties).single "description").isOk) := by
    unfold enters enteredName?
    rw [hname, htag, Bool.true_and]
    cases (e.props Namespace.properties).single "description" with
    | error err => exact (Bool.and_false _).symm
    | ok description => exact (Bool.and_true _).symm
  have hopening (first : String) :
      opening? first e = if name = first then some (givenDescription e) else none := by
    unfold opening? givenDescription
    rw [hname, htag]
    by_cases hfirst : name = first <;> simp [hfirst, Except.toOption]
  refine h.congr (fun names kind => ?_) fun names => ?_
  · cases names with
    | nil => rfl
    | cons first rest =>
      refine (List.flatMap_singleton ..).trans ?_
      rw [declarationsAt, henters, Content.within, takenContent]
      by_cases hfirst : name = first
      · cases ((e.props Namespace.properties).single "description").isOk <;>
          simp [hfirst, Content.ofChildren, Content.none]
      · simp [hfirst]
  · cases names with
    | nil => rfl
    | cons first rest =>
      refine (List.flatMap_singleton ..).trans ?_
      rw [openingsAt, henters, hopening, Content.within, takenContent]
      by_cases hfirst : name = first
      · cases ((e.props Namespace.properties).single "description").isOk <;>
          cases rest <;> simp [hfirst, Content.ofChildren, Content.none]
      · cases rest <;> simp [hfirst]

theorem gains_addNested {fill : Population → Growth} {ts : Population → List Turn}
    (htag : (e.tag == "ns") = true)
    (h : ∀ q, Gains setting q (.ofChildren e.children) (ts q) (fill q).population) :
    Gains setting p (.ofNested [e])
      ((entered? setting p e).elim [] fun q => (ts q).map (.within q.scope.name))
      (addNested setting p e fill).population := by
  unfold entered? addNested
  cases hname : (readName e).result with
  | error err =>
    simp only [hname]
    exact .ofUnnamed hname
  | ok name =>
    have hisName := isName_of_readName hname
    cases hdescription : (e.props Namespace.properties).single "description" with
    | error err =>
      -- the content is not taken, but there is a namespace from now on
      have hsame (ns : Namespace) :
          ({ ns with description := Option.none.getD ns.description } : Namespace) = ns := by
        cases ns
        rfl
      have hstay : Gains setting ⟨{ p.nested setting name with
          description := Option.none.getD (p.nested setting name).description }, p.catalogue⟩
          .none [] ⟨p.nested setting name, p.catalogue⟩ := by
        rw [hsame]
        exact .refl _ _
      simp only [hname]
      refine Gains.ofNested htag hname ?_
      rw [takenContent, givenDescription, hdescription]
      exact hstay.putNested hisName
    | ok description =>
      have hput := (h ⟨{ p.nested setting name with
        description := description.getD (p.nested setting name).description },
          p.catalogue⟩).putNested hisName
      have hwhole := Gains.ofNested htag hname (by
        rw [takenContent, givenDescription, hdescription]
        exact hput)
      simp only [hname, Option.elim_some]
      rw [congrArg Turn.within (name_nested setting p name)]
      split_ifs <;> exact hwhole

theorem gains_addNamespaces (setting : Setting) (es : List Element)
    (h : ∀ e ∈ es, ∀ properties q, Gains setting q (.ofChildren e.children) (turns setting q e)
      (add setting properties q e).population) (p : Population) :
    Gains setting p (.ofNested es) (nestedTurns setting p es)
      (addNamespaces setting p es).population := by
  induction es generalizing p with
  | nil =>
    rw [nestedTurns, addNamespaces]
    refine (Gains.refl setting p).congr (fun names kind => ?_) fun _ => rfl
    cases names <;> rfl
  | cons e es ih =>
    have hrest := ih fun c hc => h c (List.mem_cons_of_mem _ hc)
    have hfirst : Gains setting p (.ofNested [e])
        (if e.tag == "ns" then
          (entered? setting p e).elim [] fun q => (turns setting q e).map (.within q.scope.name)
        else [])
        (if e.tag == "ns" then
          addNested setting p e fun q => add setting Namespace.properties q e
        else Growth.none p).population := by
      split_ifs with htag
      · exact gains_addNested htag fun q => h e List.mem_cons_self _ q
      · have htag : e.tag ≠ "ns" := by simpa using htag
        refine (Gains.refl setting p).congr (fun names kind => ?_) fun names => ?_
        · cases names with
          | nil => rfl
          | cons first rest => simp [Content.ofNested, declarationsAt, enters, htag, Content.none]
        · cases names with
          | nil => rfl
          | cons first rest =>
            simp [Content.ofNested, openingsAt, opening?, enters, htag, Content.none]
    rw [nestedTurns, addNamespaces]
    refine (hfirst.trans (hrest _)).congr (fun names kind => ?_) fun names => ?_
    · cases names with
      | nil => rfl
      | cons first rest => exact (List.flatMap_append : ([e] ++ es).flatMap _ = _)
    · exact (List.flatMap_append : ([e] ++ es).flatMap _ = _)

/-- **What an element adds is its content.** Where nothing is reused, the declarations that stand in
the namespace that names lead to enter its lists in turn, and those are refused whose name is taken
by then. -/
theorem gains_add (setting : Setting) (he : e.ReuseFree) (properties : List String)
    (p : Population) : Gains setting p (.ofChildren e.children) (turns setting p e)
      (add setting properties p e).population := by
  induction e using Element.nested_induction generalizing properties p with
  | step e ih =>
    obtain ⟨tag, attrs, children, text, line⟩ := e
    rw [turns, add]
    have hnested := gains_addNamespaces setting children
      (fun c hc properties q => ih c hc (he.of_mem hc) properties q) p
    have hown := gains_addKinds setting he properties DeclarationKind.all (by decide)
      (addNamespaces setting p children).population
    refine (hnested.trans hown).congr (fun names kind => ?_) fun names => ?_
    · cases names with
      | nil =>
        simp only [Content.append, Content.ofNested, ownContent, kind.mem_all, and_self, if_true,
          List.nil_append]
        rfl
      | cons first rest => simp [Content.append, Content.ofChildren, Content.ofNested, ownContent]
    · exact (List.append_nil _).symm

end Population

end WireSchema
