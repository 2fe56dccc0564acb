import WireSchema.Proofs.Namespace.SameTree
import WireSchema.Proofs.Session.Reuse

/-! # Documents that build a schema

The first document that can be read begins the schema, and the documents that name it are added,
one after the other (`Schema.build`). What a schema has in its namespaces is the content of these
documents (`Schema.gains_build`). Documents may be split into documents with the same properties
(`DocumentSplits`): then the same schema is begun, the same content is added
(`DocumentSplits.sameReception`), and the schema is the same tree of namespaces
(`DocumentSplits.build`). -/

namespace WireSchema

open Markup

namespace Schema

variable {s : Schema} {s? : Option Schema} {e : Element} {docs : List Element}

/-! ### What a document adds -/

/-- The turns of all declarations of a document. -/
def turns (s : Schema) (e : Element) : List Turn :=
  if s.isNamedBy e then Population.turns ⟨s.version, s.endian⟩ ⟨s.root, s.catalogue⟩ e else []

/-- The parts of a schema that no document changes after the first one. -/
structure SameHead (s t : Schema) : Prop where
  name : t.name = s.name
  version : t.version = s.version
  endian : t.endian = s.endian

theorem sameHead_addDocument (s : Schema) (e : Element) : SameHead s (s.addDocument e).schema := by
  unfold addDocument
  dsimp only
  split_ifs <;> exact ⟨rfl, rfl, rfl⟩

theorem SameHead.isNamedBy {t : Schema} (h : SameHead s t) (e : Element) :
    t.isNamedBy e = s.isNamedBy e := by
  unfold Schema.isNamedBy
  rw [h.name]

theorem addDocument_of_isNamedBy (h : s.isNamedBy e = true) :
    (s.addDocument e).schema.root = (Population.add ⟨s.version, s.endian⟩ properties
      ⟨s.root, s.catalogue⟩ e).population.scope ∧
    (s.addDocument e).schema.catalogue = (Population.add ⟨s.version, s.endian⟩ properties
      ⟨s.root, s.catalogue⟩ e).population.catalogue := by
  unfold addDocument
  dsimp only
  split_ifs with hnot
  · change (!s.isNamedBy e) = true at hnot
    simp [h] at hnot
  · exact ⟨rfl, rfl⟩

theorem addDocument_of_not_isNamedBy (h : s.isNamedBy e = false) :
    (s.addDocument e).schema = s := by
  unfold addDocument
  dsimp only
  split_ifs with hnot
  · rfl
  · change ¬ (!s.isNamedBy e) = true at hnot
    simp [h] at hnot

/-- **A document that names the schema adds its content**, and others add nothing. -/
theorem gains_addDocument (s : Schema) (he : e.ReuseFree) :
    Population.Gains ⟨s.version, s.endian⟩ ⟨s.root, s.catalogue⟩
      (.ofChildren (if s.isNamedBy e then e.children else [])) (s.turns e)
      ⟨(s.addDocument e).schema.root, (s.addDocument e).schema.catalogue⟩ := by
  unfold turns
  split_ifs with hnamed
  · obtain ⟨hroot, hcatalogue⟩ := addDocument_of_isNamedBy hnamed
    rw [hroot, hcatalogue]
    exact Population.gains_add _ he properties _
  · rw [addDocument_of_not_isNamedBy (by simpa using hnamed)]
    exact (Population.Gains.refl _ _).congr (fun _ _ => rfl) fun _ => rfl

/-- **A document has the declarations reported that are refused for their name.** -/
theorem refused_addDocument (hs : s.Arranged) {t : Turn} (ht : t ∈ s.turns e)
    (hrepeat : t.isRepeat = true) : t.Refused (s.addDocument e).findings := by
  have hadd := (Population.refuses_add ⟨s.version, s.endian⟩ e properties
    ⟨s.root, s.catalogue⟩).refused ⟨hs.indexed.orderly, hs.tidy⟩ t
  unfold turns at ht
  split_ifs at ht with hnamed
  · refine (hadd ht hrepeat).mono fun x hx => ?_
    unfold addDocument
    dsimp only
    split_ifs with hnot
    · change (!s.isNamedBy e) = true at hnot
      simp [hnamed] at hnot
    · exact List.mem_append_right _ hx
  · exact absurd ht List.not_mem_nil

/-! ### What documents build -/

/-- The schema that a document is added to: the one that there is, or the one that it begins. -/
def receiver? (s? : Option Schema) (e : Element) : Option Schema :=
  s?.or (Schema.read e).result.toOption

/-- The schema after the documents. -/
def build : Option Schema → List Element → Option Schema
  | s?, [] => s?
  | s?, e :: es => build ((receiver? s? e).map fun s => (s.addDocument e).schema) es

/-- The turns of all declarations of the documents. -/
def turnsOf : Option Schema → List Element → List Turn
  | _, [] => []
  | s?, e :: es =>
    (receiver? s? e).elim [] (·.turns e) ++
      turnsOf ((receiver? s? e).map fun s => (s.addDocument e).schema) es

/-- The schema as the documents begin it. -/
def begun (s? : Option Schema) (docs : List Element) : Option Schema := docs.foldl receiver? s?

/-- The documents that are added. -/
def added : Option Schema → List Element → List Element
  | _, [] => []
  | s?, e :: es =>
    (if (receiver? s? e).any (·.isNamedBy e) then [e] else []) ++ added (receiver? s? e) es

theorem begun_some (s : Schema) (docs : List Element) : begun (some s) docs = some s := by
  induction docs with
  | nil => rfl
  | cons e es ih => exact ih

theorem built_of_begun (h : begun none docs = some s) : s.Built := by
  induction docs with
  | nil => cases h
  | cons e es ih =>
    have hfirst : begun (receiver? none e) es = some s := h
    cases hread : (Schema.read e).result with
    | error err =>
      rw [receiver?, hread] at hfirst
      exact ih hfirst
    | ok t =>
      rw [receiver?, hread] at hfirst
      have hbegun : some t = some s := (begun_some t es).symm.trans hfirst
      exact .read (Option.some.inj hbegun ▸ hread)

theorem turnsOf_eq_nil (h : begun s? docs = none) : turnsOf s? docs = [] := by
  induction docs generalizing s? with
  | nil => rfl
  | cons e es ih =>
    have hrest : begun (receiver? s? e) es = none := h
    cases hreceiver : receiver? s? e with
    | none =>
      rw [hreceiver] at hrest
      rw [turnsOf, hreceiver]
      exact ih hrest
    | some s =>
      rw [hreceiver, begun_some] at hrest
      cases hrest

theorem added_some (s : Schema) (docs : List Element) :
    added (some s) docs = docs.filter s.isNamedBy := by
  induction docs with
  | nil => rfl
  | cons e es ih =>
    have hreceiver : receiver? (some s) e = some s := rfl
    rw [added, hreceiver, ih, Option.any_some, List.filter_cons]
    split_ifs <;> rfl

theorem begun_of_receiver? (h : receiver? s? e = some s) (docs : List Element) :
    begun s? (e :: docs) = some s := by
  have hrest : begun s? (e :: docs) = begun (receiver? s? e) docs := rfl
  rw [hrest, h, begun_some]

theorem added_of_receiver? (h : receiver? s? e = some s) (docs : List Element) :
    added s? (e :: docs) = (e :: docs).filter s.isNamedBy := by
  rw [← added_some, added, h]
  rfl

/-- **What documents build is the content of those that are added.** -/
theorem gains_build (hdocs : ∀ e ∈ docs, e.ReuseFree) (s? : Option Schema) :
    Option.Rel (fun s t => Population.Gains ⟨s.version, s.endian⟩ ⟨s.root, s.catalogue⟩
      (.ofChildren ((added s? docs).flatMap (·.children))) (turnsOf s? docs)
      ⟨t.root, t.catalogue⟩) (begun s? docs) (build s? docs) := by
  induction docs generalizing s? with
  | nil =>
    cases s? with
    | none => exact .none
    | some s => exact .some ((Population.Gains.refl _ _).congr (fun _ _ => rfl) fun _ => rfl)
  | cons e es ih =>
    obtain ⟨he, hes⟩ := List.forall_mem_cons.mp hdocs
    have hbegun : begun s? (e :: es) = begun (receiver? s? e) es := rfl
    rw [hbegun, build, turnsOf, added]
    cases receiver? s? e with
    | none => exact ih hes none
    | some s =>
      have hhead := sameHead_addDocument s e
      have hrest := ih hes (some (s.addDocument e).schema)
      rw [begun_some, added_some, List.filter_congr fun c _ => hhead.isNamedBy c] at hrest
      rw [begun_some, added_some, Option.map_some, Option.elim_some, Option.any_some]
      generalize build (some (s.addDocument e).schema) es = t? at hrest ⊢
      cases hrest with
      | some hrest =>
        rw [hhead.version, hhead.endian] at hrest
        refine .some (((gains_addDocument s he).trans hrest).congr (fun names kind => ?_)
          fun names => ?_)
        · unfold Content.append Content.ofChildren
          dsimp only
          split_ifs <;> simp
        · unfold Content.append Content.ofChildren
          dsimp only
          split_ifs <;> simp

end Schema

/-! ### Splitting documents -/

/-- The documents `c'` and `d'` are `c` and `d`, but for where the declarations of the one end and
those of the other begin. -/
structure Handover (c d c' d' : Element) : Prop where
  tag : c'.tag = c.tag ∧ d'.tag = d.tag
  attrs : c'.attrs = c.attrs ∧ d'.attrs = d.attrs
  properties : c'.propertyChildren Schema.properties = c.propertyChildren Schema.properties ∧
    d'.propertyChildren Schema.properties = d.propertyChildren Schema.properties
  name : (d.props Schema.properties).single "name" = (c.props Schema.properties).single "name"
  declaring : c'.declaringChildren Schema.properties ++ d'.declaringChildren Schema.properties =
    c.declaringChildren Schema.properties ++ d.declaringChildren Schema.properties

/-- One of the documents can be read as a first one. -/
def Begins (docs : List Element) : Prop := ∃ e ∈ docs, (Schema.read e).result.isOk = true

/-- Documents are split into documents with the same properties, or the namespaces in them are
split. Once a schema is begun, declarations may go from a document to the next one or back, and
documents may leave out properties other than the name. -/
inductive DocumentSplits : List Element → List Element → Prop
  | refl (docs : List Element) : DocumentSplits docs docs
  | trans {docs docs' docs'' : List Element} (h : DocumentSplits docs docs')
    (h' : DocumentSplits docs' docs'') : DocumentSplits docs docs''
  | around {docs docs' : List Element} (before later : List Element)
    (h : DocumentSplits docs docs') :
    DocumentSplits (before ++ docs ++ later) (before ++ docs' ++ later)
  | parts {e : Element} {parts : List Element} (h : e.Parts Schema.properties parts) :
    DocumentSplits [e] parts
  | inside {e : Element} {children : List Element} (h : Splits e.children children) :
    DocumentSplits [e] [{ e with children }]
  | handover {before : List Element} {c d c' d' : Element} (hbegins : Begins (before ++ [c]))
    (h : Handover c d c' d') : DocumentSplits (before ++ [c, d]) (before ++ [c', d'])
  | leaveOut {before : List Element} {d d' : Element} (hbegins : Begins before)
    (hname : (d'.props Schema.properties).single "name" = (d.props Schema.properties).single "name")
    (h : d.LeavesOut Schema.properties d') : DocumentSplits (before ++ [d]) (before ++ [d'])

/-- The same schema is begun, and the same content is added to it. -/
structure SameReception (docs docs' : List Element) : Prop where
  begun : ∀ s?, Schema.begun s? docs' = Schema.begun s? docs
  added : ∀ s?, SameContent ((Schema.added s? docs).flatMap (·.children))
    ((Schema.added s? docs').flatMap (·.children))

namespace Schema

variable {s : Schema} {s? : Option Schema} {d e : Element} {docs docs' : List Element}

theorem begun_append (s? : Option Schema) (docs docs' : List Element) :
    begun s? (docs ++ docs') = begun (begun s? docs) docs' :=
  List.foldl_append

theorem exists_begun (h : Begins docs) (s? : Option Schema) : ∃ s, begun s? docs = some s := by
  obtain ⟨e, he, hok⟩ := h
  obtain ⟨before, later, rfl⟩ := List.append_of_mem he
  have hreceiver : ∃ s, receiver? (begun s? before) e = some s := by
    cases begun s? before with
    | some s => exact ⟨s, rfl⟩
    | none =>
      cases hread : (Schema.read e).result with
      | ok s => exact ⟨s, by rw [receiver?, hread]; rfl⟩
      | error err =>
        rw [hread] at hok
        cases hok
  obtain ⟨s, hs⟩ := hreceiver
  refine ⟨s, ?_⟩
  rw [begun_append, begun_of_receiver? hs]

theorem added_append (s? : Option Schema) (docs docs' : List Element) :
    added s? (docs ++ docs') = added s? docs ++ added (begun s? docs) docs' := by
  induction docs generalizing s? with
  | nil => rfl
  | cons e es ih =>
    rw [List.cons_append, added, added, ih, List.append_assoc]
    rfl

/-- The properties of a document say which schema it begins. -/
theorem sameValue_read (htag : d.tag = e.tag) (h : d.props properties = e.props properties) :
    SameValue (Schema.read d).result (Schema.read e).result := by
  unfold Schema.read
  rw [htag, h]
  refine sameValue_passBind fun _ => sameValue_passBind fun _ => sameValue_passBind fun _ => ?_
  refine sameValue_passBind fun _ => sameValue_passBind fun _ => sameValue_passBind fun _ => ?_
  refine sameValue_passBind fun _ => ?_
  exact SameValue.passBind rfl fun _ => sameValue_rfl _

theorem receiver?_congr (htag : d.tag = e.tag) (h : d.props properties = e.props properties)
    (s? : Option Schema) : receiver? s? d = receiver? s? e :=
  congrArg s?.or (sameValue_read htag h)

/-- After a document, those with the same properties are taken by the same schema. -/
theorem begun_alike (htag : ∀ d ∈ docs, d.tag = e.tag)
    (hprops : ∀ d ∈ docs, d.props properties = e.props properties) (s? : Option Schema) :
    begun (receiver? s? e) docs = receiver? s? e := by
  induction docs with
  | nil => rfl
  | cons d ds ih =>
    rw [List.forall_mem_cons] at htag hprops
    have hagain : receiver? (receiver? s? e) d = receiver? s? e := by
      rw [receiver?_congr htag.1 hprops.1]
      unfold receiver?
      rw [Option.or_assoc, Option.or_self]
    exact (congrArg (begun · ds) hagain).trans (ih htag.2 hprops.2)

theorem isNamedBy_congr
    (h : (d.props properties).single "name" = (e.props properties).single "name") (s : Schema) :
    s.isNamedBy d = s.isNamedBy e := by
  unfold isNamedBy
  rw [h]

/-- Documents with the same properties are added, or none of them is. -/
theorem added_alike (hne : docs ≠ []) (htag : ∀ d ∈ docs, d.tag = e.tag)
    (hprops : ∀ d ∈ docs, d.props properties = e.props properties) (s? : Option Schema) :
    begun s? docs = receiver? s? e ∧
      added s? docs = if (receiver? s? e).any (·.isNamedBy e) then docs else [] := by
  obtain ⟨d, ds, rfl⟩ := List.exists_cons_of_ne_nil hne
  have hreceiver : receiver? s? d = receiver? s? e :=
    receiver?_congr (htag d List.mem_cons_self) (hprops d List.mem_cons_self) s?
  have hbegun : begun s? (d :: ds) = receiver? s? e := by
    have hrest := begun_alike (fun c hc => htag c (List.mem_cons_of_mem _ hc))
      (fun c hc => hprops c (List.mem_cons_of_mem _ hc)) s?
    rw [← hrest, ← hreceiver]
    rfl
  refine ⟨hbegun, ?_⟩
  have hnamed (s : Schema) (c : Element) (hc : c ∈ d :: ds) : s.isNamedBy c = s.isNamedBy e :=
    isNamedBy_congr (by rw [hprops c hc]) s
  rw [added, hreceiver]
  cases hs : receiver? s? e with
  | none =>
    -- none of the documents can be read
    have hnone (cs : List Element) (hcs : ∀ c ∈ cs, c ∈ d :: ds) : added none cs = [] := by
      induction cs with
      | nil => rfl
      | cons c cs ih =>
        have hc := hcs c List.mem_cons_self
        have hread : receiver? none c = none := by
          rw [receiver?_congr (htag c hc) (hprops c hc)]
          exact (Option.or_eq_none_iff.mp hs).2
        rw [added, hread]
        exact ih fun c' hc' => hcs c' (List.mem_cons_of_mem _ hc')
    exact hnone ds fun c hc => List.mem_cons_of_mem _ hc
  | some s =>
    rw [added_some, Option.any_some, Option.any_some, hnamed s d List.mem_cons_self,
      List.filter_congr fun c hc => hnamed s c (List.mem_cons_of_mem _ hc)]
    cases s.isNamedBy e <;> simp

end Schema

namespace SameReception

variable {docs docs' docs'' : List Element} {c d d' e : Element}

theorem refl (docs : List Element) : SameReception docs docs :=
  ⟨fun _ => rfl, fun _ => .refl _⟩

theorem trans (h : SameReception docs docs') (h' : SameReception docs' docs'') :
    SameReception docs docs'' :=
  ⟨fun s? => (h'.begun s?).trans (h.begun s?), fun s? => (h.added s?).trans (h'.added s?)⟩

theorem around (h : SameReception docs docs') (before later : List Element) :
    SameReception (before ++ docs ++ later) (before ++ docs' ++ later) := by
  refine ⟨fun s? => ?_, fun s? => ?_⟩
  · simp only [Schema.begun_append, h.begun]
  · simp only [Schema.added_append, List.flatMap_append, Schema.begun_append, h.begun]
    exact ((SameContent.refl _).append (h.added _)).append (.refl _)

/-- Documents with the same properties and the same content instead of one document. -/
theorem of_alike (hne : docs ≠ []) (htag : ∀ d ∈ docs, d.tag = e.tag)
    (hprops : ∀ d ∈ docs, d.props Schema.properties = e.props Schema.properties)
    (hcontent : SameContent e.children (docs.flatMap (·.children))) :
    SameReception [e] docs := by
  have hone (s? : Option Schema) : Schema.begun s? [e] = Schema.receiver? s? e ∧
      Schema.added s? [e] = if (Schema.receiver? s? e).any (·.isNamedBy e) then [e] else [] :=
    Schema.added_alike (by simp) (by simp) (by simp) s?
  have hmany := Schema.added_alike hne htag hprops
  refine ⟨fun s? => (hmany s?).1.trans (hone s?).1.symm, fun s? => ?_⟩
  rw [(hmany s?).2, (hone s?).2]
  split_ifs
  · rw [List.flatMap_singleton]
    exact hcontent
  · exact .refl _

theorem parts {parts : List Element} (h : e.Parts Schema.properties parts) :
    SameReception [e] parts := by
  refine of_alike h.ne_nil h.tag (fun d hd => h.props hd) ?_
  refine propertiesOnly_schema.sameContent fun hf => ?_
  rw [List.flatMap_assoc]
  exact h.flatMap_children hf

theorem inside {children : List Element} (h : Splits e.children children) :
    SameReception [e] [{ e with children }] := by
  refine of_alike (by simp) (by simp) (by simpa using h.props_eq (by decide)) ?_
  rw [List.flatMap_singleton]
  exact h.sameContent

/-- After a document that can be read, those that name the schema are added. -/
theorem of_begins {before : List Element} (hbegins : Begins before)
    (h : ∀ s : Schema, SameContent ((docs.filter s.isNamedBy).flatMap (·.children))
      ((docs'.filter s.isNamedBy).flatMap (·.children))) :
    SameReception (before ++ docs) (before ++ docs') := by
  refine ⟨fun s? => ?_, fun s? => ?_⟩
  · obtain ⟨s, hs⟩ := Schema.exists_begun hbegins s?
    rw [Schema.begun_append, Schema.begun_append, hs, Schema.begun_some, Schema.begun_some]
  · obtain ⟨s, hs⟩ := Schema.exists_begun hbegins s?
    rw [Schema.added_append, Schema.added_append, hs, Schema.added_some, Schema.added_some,
      List.flatMap_append, List.flatMap_append]
    exact (SameContent.refl _).append (h s)

theorem leaveOut {before : List Element} (hbegins : Begins before)
    (hname : (d'.props Schema.properties).single "name" = (d.props Schema.properties).single "name")
    (h : d.LeavesOut Schema.properties d') : SameReception (before ++ [d]) (before ++ [d']) := by
  refine of_begins hbegins fun s => ?_
  rw [List.filter_singleton, List.filter_singleton, Schema.isNamedBy_congr hname]
  cases s.isNamedBy d with
  | false => exact .refl _
  | true =>
    simp only [cond_true, List.flatMap_singleton]
    exact propertiesOnly_schema.sameContent fun hf => h.flatMap_children hf

end SameReception

namespace Handover

variable {c d c' d' : Element} {before : List Element}

theorem props (h : Handover c d c' d') : c'.props Schema.properties = c.props Schema.properties ∧
    d'.props Schema.properties = d.props Schema.properties :=
  ⟨Element.props_congr h.attrs.1 h.properties.1, Element.props_congr h.attrs.2 h.properties.2⟩

theorem mem_children (h : Handover c d c' d') {x : Element}
    (hx : x ∈ c'.children ∨ x ∈ d'.children) : x ∈ c.children ∨ x ∈ d.children := by
  have hdeclaring : x ∈ c'.declaringChildren Schema.properties ∨
      x ∈ d'.declaringChildren Schema.properties ↔ x ∈ c.declaringChildren Schema.properties ∨
        x ∈ d.declaringChildren Schema.properties := by
    rw [← List.mem_append, h.declaring, List.mem_append]
  simp only [Element.mem_children_iff Schema.properties, h.properties] at hx ⊢
  tauto

/-- The documents together declare what they did. -/
theorem flatMap_children (h : Handover c d c' d') {α : Type} {f : Element → List α}
    (hf : ∀ c : Element, Schema.properties.contains c.tag = true → f c = []) :
    (c'.children ++ d'.children).flatMap f = (c.children ++ d.children).flatMap f := by
  have hchildren (x y : Element) : (x.children ++ y.children).flatMap f =
      (x.declaringChildren Schema.properties ++
        y.declaringChildren Schema.properties).flatMap f := by
    rw [List.flatMap_append, List.flatMap_append, Element.flatMap_declaringChildren hf,
      Element.flatMap_declaringChildren hf]
  rw [hchildren, hchildren, h.declaring]

theorem filter_isNamedBy (h : Handover c d c' d') (s : Schema) :
    SameContent (([c, d].filter s.isNamedBy).flatMap (·.children))
      (([c', d'].filter s.isNamedBy).flatMap (·.children)) := by
  have hd : s.isNamedBy d = s.isNamedBy c := Schema.isNamedBy_congr h.name s
  have hc' : s.isNamedBy c' = s.isNamedBy c := Schema.isNamedBy_congr (by rw [h.props.1]) s
  have hd' : s.isNamedBy d' = s.isNamedBy c :=
    (Schema.isNamedBy_congr (by rw [h.props.2]) s).trans hd
  rw [List.filter_cons, List.filter_cons, List.filter_cons, List.filter_cons, hc', hd', hd]
  split_ifs
  · simp only [List.filter_nil, List.flatMap_cons, List.flatMap_nil, List.append_nil]
    exact propertiesOnly_schema.sameContent fun hf => h.flatMap_children hf
  · exact .refl _

theorem sameReception (h : Handover c d c' d') (hbegins : Begins (before ++ [c])) :
    SameReception (before ++ [c, d]) (before ++ [c', d']) := by
  by_cases hbefore : Begins before
  · exact .of_begins hbefore h.filter_isNamedBy
  · -- the first one of the two begins the schema, if there is none
    obtain ⟨e, he, hok⟩ := hbegins
    have hc : e = c := by
      rcases List.mem_append.mp he with he | he
      · exact absurd ⟨e, he, hok⟩ hbefore
      · exact List.mem_singleton.mp he
    subst hc
    have hreceiver (s? : Option Schema) : ∃ s, Schema.receiver? s? e = some s ∧
        Schema.receiver? s? c' = some s := by
      obtain ⟨s, hs⟩ := Schema.exists_begun ⟨e, List.mem_singleton_self e, hok⟩ s?
      exact ⟨s, hs, (Schema.receiver?_congr h.tag.1 h.props.1 s?).trans hs⟩
    have hpair : SameReception [e, d] [c', d'] := by
      refine ⟨fun s? => ?_, fun s? => ?_⟩
      · obtain ⟨s, hs, hs'⟩ := hreceiver s?
        rw [Schema.begun_of_receiver? hs, Schema.begun_of_receiver? hs']
      · obtain ⟨s, hs, hs'⟩ := hreceiver s?
        rw [Schema.added_of_receiver? hs, Schema.added_of_receiver? hs']
        exact h.filter_isNamedBy s
    simpa using hpair.around before []

end Handover

namespace DocumentSplits

variable {docs docs' : List Element}

/-- **Where documents are split, the same content is added to the same schema.** -/
theorem sameReception (h : DocumentSplits docs docs') : SameReception docs docs' := by
  induction h with
  | refl docs => exact .refl docs
  | trans _ _ ih ih' => exact ih.trans ih'
  | around before later _ ih => exact ih.around before later
  | parts h => exact .parts h
  | inside h => exact .inside h
  | handover hbegins h => exact h.sameReception hbegins
  | leaveOut hbegins hname h => exact .leaveOut hbegins hname h

/-- What is split was without reuse, and is so after it. -/
theorem reuseFree (h : DocumentSplits docs docs') (hdocs : ∀ e ∈ docs, e.ReuseFree) :
    ∀ e ∈ docs', e.ReuseFree := by
  induction h with
  | refl docs => exact hdocs
  | trans _ _ ih ih' => exact ih' (ih hdocs)
  | around before later _ ih =>
    rw [List.forall_mem_append, List.forall_mem_append] at hdocs ⊢
    exact ⟨⟨hdocs.1.1, ih hdocs.1.2⟩, hdocs.2⟩
  | parts h => exact fun d hd => (hdocs _ (List.mem_singleton_self _)).part h hd
  | @inside e children h =>
    have he := hdocs e (List.mem_singleton_self e)
    exact List.forall_mem_singleton.mpr (he.of_splits h)
  | @handover before c d c' d' _ h =>
    rw [List.forall_mem_append, List.forall_mem_cons, List.forall_mem_singleton] at hdocs ⊢
    obtain ⟨hbefore, hc, hd⟩ := hdocs
    have hmem (x : Element) (hx : x ∈ c'.children ∨ x ∈ d'.children) :
        ∃ w : Element, w.ReuseFree ∧ x ∈ w.children :=
      (h.mem_children hx).elim (fun hx => ⟨c, hc, hx⟩) fun hx => ⟨d, hd, hx⟩
    exact ⟨hbefore, hc.of_attrs h.attrs.1 fun x hx => hmem x (Or.inl hx),
      hd.of_attrs h.attrs.2 fun x hx => hmem x (Or.inr hx)⟩
  | leaveOut _ _ h =>
    rw [List.forall_mem_append, List.forall_mem_singleton] at hdocs ⊢
    exact ⟨hdocs.1, hdocs.2.leaveOut h⟩

/-- **Where documents are split, the schema is the same tree of namespaces**, and the same
declarations are refused because their name is taken. -/
theorem build (h : DocumentSplits docs docs') (hdocs : ∀ e ∈ docs, e.ReuseFree) :
    Option.Rel (fun s s' => Namespace.SameTree s.arena s'.arena s.root s'.root)
      (Schema.build none docs) (Schema.build none docs') ∧
    (Turn.repeats (Schema.turnsOf none docs')).Perm (Turn.repeats (Schema.turnsOf none docs)) := by
  have hsame := h.sameReception
  have hcontent := hsame.added none
  have hgains := Schema.gains_build hdocs none
  have hgains' := Schema.gains_build (h.reuseFree hdocs) none
  rw [hsame.begun] at hgains'
  generalize Schema.build none docs = x at hgains ⊢
  generalize Schema.build none docs' = x' at hgains' ⊢
  cases hbegun : Schema.begun none docs with
  | none =>
    rw [hbegun] at hgains hgains'
    cases hgains
    cases hgains'
    rw [Schema.turnsOf_eq_nil hbegun, Schema.turnsOf_eq_nil ((hsame.begun none).trans hbegun)]
    exact ⟨.none, .refl _⟩
  | some s =>
    have harranged := (Schema.built_of_begun hbegun).arranged
    have hp : Population.Arranged ⟨s.root, s.catalogue⟩ :=
      ⟨harranged.indexed.orderly, harranged.tidy⟩
    rw [hbegun] at hgains hgains'
    cases hgains with
    | some hgains =>
      cases hgains' with
      | some hgains' =>
        exact ⟨.some (hgains.sameTree hgains' hp hcontent), hgains.repeats_perm hgains' hp hcontent⟩

end DocumentSplits

end WireSchema
