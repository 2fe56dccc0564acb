import WireSchema.Proofs.Namespace.Content
import WireSchema.Schema.Basic

/-! # Splitting namespaces

An element may be cut into parts that repeat its tag, attributes and properties, each with some of
its other children (`Element.Parts`). Namespaces among the children of an element may be split so,
at any depth, their parts may be moved past children that declare something else, and a part may
leave out what one before it says of the namespace (`Splits`). Then in each namespace the same is
declared, in the same order (`Splits.sameContent`). -/

namespace WireSchema

open Markup

/-! ### Parts of an element -/

namespace Markup.Element

variable {names : List String} {e d c : Element} {parts : List Element}

/-- The children that are properties of the element. -/
def propertyChildren (names : List String) (e : Element) : List Element :=
  e.children.filter fun c => c.isPropertyChild names

/-- The children that declare something instead. -/
def declaringChildren (names : List String) (e : Element) : List Element :=
  e.children.filter fun c => !c.isPropertyChild names

/-- The element is cut into the parts. They have its tag, attributes and properties, and one after
the other its declarations. -/
structure Parts (names : List String) (e : Element) (parts : List Element) : Prop where
  ne_nil : parts ≠ []
  tag : ∀ d ∈ parts, d.tag = e.tag
  attrs : ∀ d ∈ parts, d.attrs = e.attrs
  properties : ∀ d ∈ parts, d.propertyChildren names = e.propertyChildren names
  declaring : parts.flatMap (declaringChildren names) = e.declaringChildren names

/-- The properties of an element are known by its attributes and the children that are
properties. -/
theorem props_congr (hattrs : d.attrs = e.attrs)
    (hproperties : d.propertyChildren names = e.propertyChildren names) :
    d.props names = e.props names := by
  have hchildren (e : Element) : ((e.children.filter fun c => names.contains c.tag).filterMap
      fun c => c.propertyValue?.map fun v => (c.tag, v)) =
      (e.propertyChildren names).filterMap fun c => c.propertyValue?.map fun v => (c.tag, v) := by
    unfold propertyChildren isPropertyChild
    rw [List.filterMap_filter, List.filterMap_filter]
    refine List.filterMap_congr fun c _ => ?_
    cases names.contains c.tag <;> cases c.propertyValue? <;> rfl
  unfold props
  rw [hchildren, hchildren, hattrs, hproperties]

theorem Parts.props (h : e.Parts names parts) (hd : d ∈ parts) : d.props names = e.props names :=
  props_congr (h.attrs d hd) (h.properties d hd)

theorem mem_children_iff (names : List String) :
    c ∈ e.children ↔ c ∈ e.propertyChildren names ∨ c ∈ e.declaringChildren names := by
  unfold propertyChildren declaringChildren
  rw [List.mem_filter, List.mem_filter, ← and_or_left]
  cases c.isPropertyChild names <;> simp

theorem Parts.mem_children (h : e.Parts names parts) (hd : d ∈ parts) (hc : c ∈ d.children) :
    c ∈ e.children := by
  rw [mem_children_iff names] at hc ⊢
  rw [← h.properties d hd, ← h.declaring]
  exact hc.imp_right fun hc => List.mem_flatMap.mpr ⟨d, hd, hc⟩

/-- `d` is `e` without some of the children that are properties. -/
structure LeavesOut (names : List String) (e d : Element) : Prop where
  tag : d.tag = e.tag
  attrs : d.attrs = e.attrs
  properties : (d.propertyChildren names).Sublist (e.propertyChildren names)
  declaring : d.declaringChildren names = e.declaringChildren names

theorem LeavesOut.mem_children (h : e.LeavesOut names d) (hc : c ∈ d.children) :
    c ∈ e.children := by
  rw [mem_children_iff names] at hc ⊢
  rw [← h.declaring]
  exact hc.imp_left fun hc => h.properties.subset hc

theorem reuse_eq_none_iff : (e.props ["reuse"]).single "reuse" = .ok none ↔
    (e.attrs.filter (·.1 == "reuse")).map (·.2) = [] ∧
      ∀ c ∈ e.children, c.tag = "reuse" → c.propertyValue? = none := by
  rw [Props.single_eq_ok_none_iff, all_props, List.append_eq_nil_iff, List.filterMap_eq_nil_iff]
  refine and_congr_right fun _ => forall_congr' fun c => ?_
  rw [List.mem_filter, and_imp]
  simp

/-- An element is without reuse if it has the attributes of one that is, and its children are
children of such elements. -/
theorem ReuseFree.of_attrs (he : e.ReuseFree) (hattrs : d.attrs = e.attrs)
    (hchildren : ∀ c ∈ d.children, ∃ w : Element, w.ReuseFree ∧ c ∈ w.children) : d.ReuseFree := by
  refine .mk (reuse_eq_none_iff.mpr ⟨?_, fun c hc => ?_⟩) fun c hc => ?_
  · rw [hattrs]
    exact (reuse_eq_none_iff.mp he.own).1
  · obtain ⟨w, hw, hc⟩ := hchildren c hc
    exact (reuse_eq_none_iff.mp hw.own).2 c hc
  · obtain ⟨w, hw, hc⟩ := hchildren c hc
    exact hw.of_mem hc

/-- The parts of an element without reuse are without reuse. -/
theorem ReuseFree.part (he : e.ReuseFree) (h : e.Parts names parts) (hd : d ∈ parts) :
    d.ReuseFree :=
  he.of_attrs (h.attrs d hd) fun _ hc => ⟨e, he, h.mem_children hd hc⟩

theorem ReuseFree.leaveOut (he : e.ReuseFree) (h : e.LeavesOut names d) : d.ReuseFree :=
  he.of_attrs h.attrs fun _ hc => ⟨e, he, h.mem_children hc⟩

theorem flatMap_declaringChildren {α : Type} {f : Element → List α}
    (hf : ∀ c : Element, names.contains c.tag = true → f c = []) (e : Element) :
    (e.declaringChildren names).flatMap f = e.children.flatMap f := by
  unfold declaringChildren
  induction e.children with
  | nil => rfl
  | cons c cs ih =>
    rw [List.filter_cons, List.flatMap_cons, ← ih]
    split_ifs with hc
    · rfl
    · have hnames : names.contains c.tag = true := by
        rw [Bool.not_eq_true, Bool.not_eq_false', isPropertyChild, Bool.and_eq_true] at hc
        exact hc.1
      rw [hf c hnames, List.nil_append]

/-- What only the declarations of an element give, the parts give one after the other. -/
theorem Parts.flatMap_children {α : Type} {f : Element → List α} (h : e.Parts names parts)
    (hf : ∀ c : Element, names.contains c.tag = true → f c = []) :
    parts.flatMap (fun d => d.children.flatMap f) = e.children.flatMap f := by
  rw [← flatMap_declaringChildren hf e, ← h.declaring, List.flatMap_assoc]
  exact List.flatMap_congr fun d _ => (flatMap_declaringChildren hf d).symm

theorem LeavesOut.flatMap_children {α : Type} {f : Element → List α} (h : e.LeavesOut names d)
    (hf : ∀ c : Element, names.contains c.tag = true → f c = []) :
    d.children.flatMap f = e.children.flatMap f := by
  rw [← flatMap_declaringChildren hf d, h.declaring, flatMap_declaringChildren hf e]

end Markup.Element

/-! ### What makes no difference -/

/-- In each namespace the same is declared, in the same order, and the same is said of it. -/
structure SameContent (es es' : List Element) : Prop where
  declarations : ∀ names kind,
    es'.flatMap (declarationsAt kind names) = es.flatMap (declarationsAt kind names)
  openings : ∀ names old,
    (es'.flatMap (openingsAt names)).foldl describe old =
      (es.flatMap (openingsAt names)).foldl describe old

namespace SameContent

variable {es es' es'' : List Element}

theorem refl (es : List Element) : SameContent es es := ⟨fun _ _ => rfl, fun _ _ => rfl⟩

theorem trans (h : SameContent es es') (h' : SameContent es' es'') : SameContent es es'' :=
  ⟨fun names kind => (h'.declarations names kind).trans (h.declarations names kind),
    fun names old => (h'.openings names old).trans (h.openings names old)⟩

theorem append {fs fs' : List Element} (h : SameContent es es') (h' : SameContent fs fs') :
    SameContent (es ++ fs) (es' ++ fs') := by
  refine ⟨fun names kind => ?_, fun names old => ?_⟩
  · rw [List.flatMap_append, List.flatMap_append, h.declarations, h'.declarations]
  · rw [List.flatMap_append, List.flatMap_append, List.foldl_append, List.foldl_append, h.openings,
      h'.openings]

end SameContent

/-! ### Namespaces and their properties -/

section
variable {e d c : Element} {name : String}

theorem sameValue_readName (h : d.props Namespace.properties = e.props Namespace.properties) :
    SameValue (Population.readName d).result (Population.readName e).result := by
  unfold Population.readName
  rw [h]
  refine sameValue_passBind fun name => sameValue_passBind fun _ => ?_
  exact SameValue.passBind rfl fun _ => sameValue_rfl _

/-- The properties of a namespace say what it is called. -/
theorem opening?_congr (htag : d.tag = e.tag)
    (h : d.props Namespace.properties = e.props Namespace.properties) (name : String) :
    opening? name d = opening? name e := by
  unfold opening?
  rw [htag, h, sameValue_readName h]

theorem enteredName?_eq (e : Element) : enteredName? e =
    if ((e.props Namespace.properties).single "description").isOk then
      (Population.readName e).result.toOption
    else none := by
  unfold enteredName?
  cases (Population.readName e).result <;>
    cases (e.props Namespace.properties).single "description" <;> rfl

theorem enters_congr (htag : d.tag = e.tag)
    (h : d.props Namespace.properties = e.props Namespace.properties) (name : String) :
    enters name d = enters name e := by
  unfold enters
  rw [enteredName?_eq, enteredName?_eq, htag, h, sameValue_readName h]

theorem toOption_readName_of_enters (h : enters name e = true) :
    e.tag = "ns" ∧ (Population.readName e).result.toOption = some name := by
  unfold enters at h
  rw [enteredName?_eq, Bool.and_eq_true, beq_iff_eq, beq_iff_eq] at h
  refine ⟨h.1, ?_⟩
  have hentered := h.2
  split_ifs at hentered
  exact hentered

/-- A namespace is no declaration of the namespace that it stands in. -/
theorem declaredBy_of_ns (htag : e.tag = "ns") (kind : DeclarationKind) :
    declaredBy kind e = [] := by
  unfold declaredBy
  rw [htag]
  cases kind <;> rfl

/-- The names of properties are no tags of declarations. -/
def PropertiesOnly (names : List String) : Prop :=
  ∀ tag ∈ names, tag ≠ "ns" ∧
    ∀ kind ∈ DeclarationKind.all, tag ≠ kind.wrapper ∧ kind.accepts tag = false

theorem propertiesOnly_namespace : PropertiesOnly Namespace.properties := by
  unfold PropertiesOnly
  decide

theorem propertiesOnly_schema : PropertiesOnly Schema.properties := by
  unfold PropertiesOnly
  decide

theorem PropertiesOnly.declarationsAt {names : List String} (h : PropertiesOnly names)
    (hc : names.contains c.tag = true) (kind : DeclarationKind) (path : List String) :
    declarationsAt kind path c = [] := by
  obtain ⟨hns, hkind⟩ := h c.tag (List.contains_iff_mem.mp hc)
  cases path with
  | nil =>
    obtain ⟨hwrapper, haccepts⟩ := hkind kind kind.mem_all
    unfold WireSchema.declarationsAt declaredBy
    rw [beq_false_of_ne hwrapper, haccepts]
    rfl
  | cons first rest =>
    unfold WireSchema.declarationsAt enters
    rw [beq_false_of_ne hns]
    rfl

theorem PropertiesOnly.openingsAt {names : List String} (h : PropertiesOnly names)
    (hc : names.contains c.tag = true) (path : List String) : openingsAt path c = [] := by
  obtain ⟨hns, -⟩ := h c.tag (List.contains_iff_mem.mp hc)
  cases path with
  | nil => rfl
  | cons first rest =>
    unfold WireSchema.openingsAt opening? enters
    rw [beq_false_of_ne hns]
    cases rest <;> rfl

/-- What only the declarations give is all that counts. -/
theorem PropertiesOnly.sameContent {names : List String} {es es' : List Element}
    (h : PropertiesOnly names) (heq : ∀ {α : Type} {f : Element → List α},
      (∀ c : Element, names.contains c.tag = true → f c = []) → es'.flatMap f = es.flatMap f) :
    SameContent es es' :=
  ⟨fun path kind => heq fun _ hc => h.declarationsAt hc kind path,
    fun path old => congrArg (List.foldl describe old) (heq fun _ hc => h.openingsAt hc path)⟩

/-! ### Parts of a namespace -/

theorem describe_describe (old given : Option String) :
    describe (describe old given) given = describe old given := by
  cases given <;> rfl

theorem foldl_describe_const {α : Type} {f : α → List (Option String)}
    {given : List (Option String)} {xs : List α} (hgiven : given.length ≤ 1)
    (hne : xs ≠ []) (hf : ∀ x ∈ xs, f x = given) (old : Option String) :
    (xs.flatMap f).foldl describe old = given.foldl describe old := by
  induction xs generalizing old with
  | nil => exact absurd rfl hne
  | cons x xs ih =>
    rw [List.flatMap_cons, List.foldl_append, hf x List.mem_cons_self]
    by_cases hxs : xs = []
    · rw [hxs]
      rfl
    · rw [ih hxs fun y hy => hf y (List.mem_cons_of_mem _ hy)]
      -- to be given the same description twice is to be given it once
      match given, hgiven with
      | [], _ => rfl
      | [g], _ => exact describe_describe old g

theorem openingsAt_singleton (name : String) (e : Element) :
    openingsAt [name] e = (opening? name e).toList := by
  have hnone : (e.children.flatMap fun d => openingsAt [] d) = [] :=
    List.flatMap_eq_nil_iff.mpr fun _ _ => rfl
  rw [openingsAt, hnone, ite_self, List.append_nil]
  rfl

theorem openingsAt_cons_cons (first second : String) (rest : List String) (e : Element) :
    openingsAt (first :: second :: rest) e =
      if enters first e then e.children.flatMap fun d => openingsAt (second :: rest) d else [] :=
  List.nil_append _

section parts
variable {parts : List Element} (htag : e.tag = "ns") (h : e.Parts Namespace.properties parts)
include h

/-- What the declarations in a namespace give, those in its parts give. -/
theorem Markup.Element.Parts.flatMap_entered {α : Type} {f : Element → List α}
    (hf : ∀ c : Element, Namespace.properties.contains c.tag = true → f c = []) (name : String) :
    (parts.flatMap fun d => if enters name d then d.children.flatMap f else []) =
      if enters name e then e.children.flatMap f else [] := by
  have henters : ∀ d ∈ parts, enters name d = enters name e := fun d hd =>
    enters_congr (h.tag d hd) (h.props hd) name
  split_ifs with henter
  · rw [← h.flatMap_children hf]
    refine List.flatMap_congr fun d hd => ?_
    rw [henters d hd, if_pos henter]
  · rw [List.flatMap_eq_nil_iff]
    intro d hd
    rw [henters d hd, if_neg henter]

include htag

/-- **The parts of a namespace declare what the namespace declares.** -/
theorem Markup.Element.Parts.sameContent : SameContent [e] parts := by
  have htags : ∀ d ∈ parts, d.tag = "ns" := fun d hd => (h.tag d hd).trans htag
  refine ⟨fun names kind => ?_, fun names old => ?_⟩
  · rw [List.flatMap_singleton]
    cases names with
    | nil =>
      rw [declarationsAt, declaredBy_of_ns htag, List.flatMap_eq_nil_iff]
      exact fun d hd => declaredBy_of_ns (htags d hd) kind
    | cons first rest =>
      exact h.flatMap_entered
        (fun c hc => propertiesOnly_namespace.declarationsAt hc kind rest) first
  · rw [List.flatMap_singleton]
    match names with
    | [] =>
      have hnone : parts.flatMap (openingsAt []) = [] := List.flatMap_eq_nil_iff.mpr fun _ _ => rfl
      rw [hnone]
      rfl
    | [name] =>
      refine foldl_describe_const ?_ h.ne_nil (fun d hd => ?_) old
      · rw [openingsAt_singleton]
        exact Option.length_toList_le
      · rw [openingsAt_singleton, openingsAt_singleton, opening?_congr (h.tag d hd) (h.props hd)]
    | first :: second :: rest =>
      refine congrArg (List.foldl describe old) ?_
      simp only [openingsAt_cons_cons]
      exact h.flatMap_entered
        (fun c hc => propertiesOnly_namespace.openingsAt hc (second :: rest)) first

end parts

/-- A namespace whose children are exchanged for others that declare the same declares the same. -/
theorem SameContent.inside {children : List Element} (h : SameContent e.children children)
    (htag : e.tag = "ns")
    (hprops : ({ e with children } : Element).props Namespace.properties =
      e.props Namespace.properties) : SameContent [e] [{ e with children }] := by
  have henters (name : String) : enters name { e with children } = enters name e :=
    enters_congr (d := { e with children }) (e := e) rfl hprops name
  refine ⟨fun names kind => ?_, fun names old => ?_⟩
  · rw [List.flatMap_singleton, List.flatMap_singleton]
    cases names with
    | nil =>
      rw [declarationsAt, declarationsAt, declaredBy_of_ns htag]
      exact declaredBy_of_ns (e := { e with children }) htag kind
    | cons first rest =>
      rw [declarationsAt, declarationsAt, henters]
      exact ite_congr rfl (fun _ => h.declarations rest kind) fun _ => rfl
  · rw [List.flatMap_singleton, List.flatMap_singleton]
    match names with
    | [] => rfl
    | [name] =>
      rw [openingsAt_singleton, openingsAt_singleton,
        opening?_congr (d := { e with children }) (e := e) rfl hprops]
    | first :: second :: rest =>
      rw [openingsAt_cons_cons, openingsAt_cons_cons, henters]
      split_ifs
      · exact h.openings (second :: rest) old
      · rfl

/-- `d` names the same namespace as `c`, and describes it as `c` does or not at all. -/
structure Echoes (c d : Element) : Prop where
  name : (Population.readName d).result.toOption = (Population.readName c).result.toOption
  description : ∃ given, (c.props Namespace.properties).single "description" = .ok given ∧
    ((d.props Namespace.properties).single "description" = .ok given ∨
      (d.props Namespace.properties).single "description" = .ok none)

section echoes
variable {c d : Element} (h : Echoes c d) (hc : c.tag = "ns") (hd : d.tag = "ns")
include h hc hd

theorem Echoes.enters (name : String) : enters name d = enters name c := by
  obtain ⟨given, hgiven, hdescription⟩ := h.description
  have hok : ((d.props Namespace.properties).single "description").isOk = true := by
    rcases hdescription with hdescription | hdescription <;> rw [hdescription] <;> rfl
  unfold WireSchema.enters
  rw [enteredName?_eq, enteredName?_eq, h.name, hok, hgiven, hc, hd]
  rfl

/-- After `c`, it makes no difference what `d` says of the namespace. -/
theorem Echoes.describe (name : String) (old : Option String) :
    ((opening? name c).toList ++ (opening? name d).toList).foldl describe old =
      (opening? name c).toList.foldl describe old := by
  obtain ⟨given, hgiven, hdescription⟩ := h.description
  unfold opening?
  rw [h.name, hc, hd, hgiven]
  split_ifs
  · rcases hdescription with hdescription | hdescription <;> rw [hdescription]
    · exact describe_describe old given
    · rfl
  · rfl

end echoes

/-- **A part that leaves out what one before it says declares the same.** -/
theorem Echoes.sameContent {c d d' : Element} (h : Echoes c d) (h' : Echoes c d')
    (hc : c.tag = "ns") (hd : d.tag = "ns") (hout : d.LeavesOut Namespace.properties d') :
    SameContent [c, d] [c, d'] := by
  have hd' : d'.tag = "ns" := hout.tag.trans hd
  have henters (name : String) : WireSchema.enters name d' = WireSchema.enters name d := by
    rw [h'.enters hc hd', h.enters hc hd]
  have hpair {α : Type} (f : Element → List α) (e : Element) : [c, e].flatMap f = f c ++ f e := by
    simp
  refine ⟨fun names kind => ?_, fun names old => ?_⟩
  · rw [hpair, hpair]
    refine congrArg (_ ++ ·) ?_
    cases names with
    | nil => rw [declarationsAt, declarationsAt, declaredBy_of_ns hd', declaredBy_of_ns hd]
    | cons first rest =>
      rw [declarationsAt, declarationsAt, henters,
        hout.flatMap_children fun c hc => propertiesOnly_namespace.declarationsAt hc kind rest]
  · rw [hpair, hpair]
    match names with
    | [] => rfl
    | [name] =>
      rw [openingsAt_singleton, openingsAt_singleton, openingsAt_singleton, h.describe hc hd,
        h'.describe hc hd']
    | first :: second :: rest =>
      rw [openingsAt_cons_cons _ _ _ d', openingsAt_cons_cons _ _ _ d, henters,
        hout.flatMap_children fun c hc => propertiesOnly_namespace.openingsAt hc (second :: rest)]

/-- One of the elements is a namespace, and they are not two namespaces of one name. -/
structure Apart (c d : Element) : Prop where
  isNamespace : c.tag = "ns" ∨ d.tag = "ns"
  name : c.tag = "ns" → d.tag = "ns" → ∀ name,
    (Population.readName c).result.toOption = some name →
      (Population.readName d).result.toOption ≠ some name

/-- Elements that declare nothing in one namespace may change places. -/
theorem Apart.sameContent (h : Apart c d) : SameContent [c, d] [d, c] := by
  -- in each namespace, one of the two declares nothing
  have hswap {α : Type} {f : Element → List α} (hf : f c = [] ∨ f d = []) :
      [d, c].flatMap f = [c, d].flatMap f := by
    rcases hf with hf | hf <;> simp [hf]
  have hname (first : String) {α : Type} {f : Element → List α}
      (hf : ∀ e, f e ≠ [] → e.tag = "ns" ∧
        (Population.readName e).result.toOption = some first) : f c = [] ∨ f d = [] := by
    by_contra hboth
    rw [not_or] at hboth
    obtain ⟨hc, hcname⟩ := hf c hboth.1
    obtain ⟨hd, hdname⟩ := hf d hboth.2
    exact h.name hc hd first hcname hdname
  refine ⟨fun names kind => hswap ?_, fun names old => ?_⟩
  · cases names with
    | nil =>
      rcases h.isNamespace with hc | hd
      · exact Or.inl (declaredBy_of_ns hc kind)
      · exact Or.inr (declaredBy_of_ns hd kind)
    | cons first rest =>
      refine hname first fun e he => toOption_readName_of_enters ?_
      by_contra hnot
      rw [declarationsAt, if_neg hnot] at he
      exact he rfl
  · refine congrArg (List.foldl describe old) (hswap ?_)
    match names with
    | [] => exact Or.inl rfl
    | first :: rest =>
      refine hname first fun e he => ?_
      by_contra hnot
      have hopening : opening? first e = none := by
        unfold opening?
        refine if_neg fun h => hnot ?_
        rw [Bool.and_eq_true, beq_iff_eq, beq_iff_eq] at h
        exact h
      have henters : ¬ enters first e = true := fun h => hnot (toOption_readName_of_enters h)
      rw [openingsAt, hopening, if_neg henters] at he
      cases rest <;> exact he rfl

end

/-! ### Splitting -/

/-- Namespaces among the elements, or within them at any depth, are split into parts. The parts are
moved past elements that declare nothing in the same namespace, and parts leave out what one before
them says. -/
inductive Splits : List Element → List Element → Prop
  | refl (es : List Element) : Splits es es
  | trans {es es' es'' : List Element} (h : Splits es es') (h' : Splits es' es'') : Splits es es''
  | around {es es' : List Element} (before later : List Element) (h : Splits es es') :
    Splits (before ++ es ++ later) (before ++ es' ++ later)
  | parts {e : Element} {parts : List Element} (htag : e.tag = "ns")
    (h : e.Parts Namespace.properties parts) : Splits [e] parts
  | inside {e : Element} {children : List Element} (htag : e.tag = "ns")
    (h : Splits e.children children) : Splits [e] [{ e with children }]
  | leaveOut {c d d' : Element} (hc : c.tag = "ns") (hd : d.tag = "ns") (h : Echoes c d)
    (h' : Echoes c d') (hout : d.LeavesOut Namespace.properties d') : Splits [c, d] [c, d']
  | swap {c d : Element} (h : Apart c d) : Splits [c, d] [d, c]

namespace Splits

variable {es es' : List Element}

/-- Only namespaces are split or moved. -/
theorem filter_eq (h : Splits es es') {accept : Element → Bool}
    (hns : ∀ c : Element, c.tag = "ns" → accept c = false) :
    es'.filter accept = es.filter accept := by
  induction h with
  | refl es => rfl
  | trans _ _ ih ih' => exact ih'.trans ih
  | around before later _ ih => simp only [List.filter_append, ih]
  | parts htag h =>
    rw [List.filter_cons_of_neg (by rw [hns _ htag]; exact Bool.false_ne_true), List.filter_nil,
      List.filter_eq_nil_iff]
    intro d hd
    rw [hns d ((h.tag d hd).trans htag)]
    exact Bool.false_ne_true
  | @inside e children htag _ _ =>
    have he := hns e htag
    have he' := hns { e with children } htag
    simp [he, he']
  | leaveOut hc hd _ _ hout =>
    simp [List.filter_cons, hns _ hd, hns _ (hout.tag.trans hd)]
  | @swap c d h =>
    rcases h.isNamespace with htag | htag
    · simp [List.filter_cons, hns c htag]
    · simp [List.filter_cons, hns d htag]

/-- A namespace whose children are split keeps its properties. -/
theorem props_eq {e : Element} (h : Splits e.children es') {names : List String}
    (hns : names.contains "ns" = false) :
    ({ e with children := es' } : Element).props names = e.props names := by
  refine Element.props_congr rfl (h.filter_eq fun c hc => ?_)
  rw [Element.isPropertyChild, hc, hns]
  rfl

/-- **Where namespaces are split, the same is declared in each namespace.** -/
theorem sameContent (h : Splits es es') : SameContent es es' := by
  induction h with
  | refl es => exact .refl es
  | trans _ _ ih ih' => exact ih.trans ih'
  | around before later _ ih =>
    exact ((SameContent.refl before).append ih).append (.refl later)
  | parts htag h => exact h.sameContent htag
  | inside htag h ih => exact ih.inside htag (h.props_eq (by decide))
  | leaveOut hc hd h h' hout => exact h.sameContent h' hc hd hout
  | swap h => exact h.sameContent

/-- What is split was without reuse, and is so after it. -/
theorem reuseFree (h : Splits es es') (hes : ∀ e ∈ es, e.ReuseFree) : ∀ e ∈ es', e.ReuseFree := by
  induction h with
  | refl es => exact hes
  | trans _ _ ih ih' => exact ih' (ih hes)
  | around before later _ ih =>
    rw [List.forall_mem_append, List.forall_mem_append] at hes ⊢
    exact ⟨⟨hes.1.1, ih hes.1.2⟩, hes.2⟩
  | parts _ h => exact fun d hd => (hes _ (List.mem_singleton_self _)).part h hd
  | @inside e children _ h ih =>
    have he := hes e (List.mem_singleton_self e)
    refine List.forall_mem_singleton.mpr (.mk ?_ (ih fun c hc => he.of_mem hc))
    rw [h.props_eq (by decide)]
    exact he.own
  | leaveOut _ _ _ _ hout =>
    rw [List.forall_mem_cons, List.forall_mem_singleton] at hes ⊢
    exact ⟨hes.1, hes.2.leaveOut hout⟩
  | swap _ =>
    exact List.forall_mem_cons.mpr ⟨hes _ (List.mem_cons_of_mem _ (List.mem_singleton_self _)),
      List.forall_mem_singleton.mpr (hes _ List.mem_cons_self)⟩

end Splits

theorem Markup.Element.ReuseFree.of_splits {e : Element} {children : List Element}
    (he : e.ReuseFree) (h : Splits e.children children) :
    ({ e with children } : Element).ReuseFree := by
  refine .mk ?_ (h.reuseFree fun c hc => he.of_mem hc)
  rw [h.props_eq (by decide)]
  exact he.own

end WireSchema
