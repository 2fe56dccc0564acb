import WireSchema.Proofs.Finding.Yield
import WireSchema.Proofs.Namespace.Growth
import WireSchema.Proofs.Namespace.Nesting
import WireSchema.Proofs.Text.Sorted

/-! # Properties of all namespaces

A property of the interfaces, messages and frames of a namespace that a new namespace has, and that
one more declaration does not break, is kept up (`Upkeep`): if all namespaces of a population have
it, all of them have it after an element is added (`Upkeep.add`). What all readers of declarations
establish is kept up (`upkeep_allParts`). -/

namespace WireSchema

open Markup Relation

namespace Namespace

/-- The namespace and all namespaces within it have the property. -/
def Everywhere (R : Namespace → Prop) (ns : Namespace) : Prop := ∀ n : Namespace, n.Within ns → R n

variable {R : Namespace → Prop} {ns ns' : Namespace}

theorem everywhere_iff : ns.Everywhere R ↔ R ns ∧ ∀ n ∈ ns.namespaces, n.Everywhere R := by
  constructor
  · intro h
    exact ⟨h ns ReflTransGen.refl, fun n hn m hm => h m (ReflTransGen.head hn hm)⟩
  · rintro ⟨hns, hall⟩ m hm
    rcases ReflTransGen.cases_head hm with rfl | ⟨n, hn, hm⟩
    · exact hns
    · exact hall n hn m hm

/-- What is nested keeps the property when something else is changed. -/
theorem Everywhere.of_own (h : ns.Everywhere R) (hnamespaces : ns'.namespaces = ns.namespaces)
    (hown : R ns → R ns') : ns'.Everywhere R := by
  obtain ⟨hns, hall⟩ := everywhere_iff.mp h
  refine everywhere_iff.mpr ⟨hown hns, ?_⟩
  rw [hnamespaces]
  exact hall

/-- A property of interfaces, messages and frames that new namespaces have, and that no declaration
that is read in a schema of the version breaks. -/
structure Upkeep (version : Nat) (R : Namespace → Prop) : Prop where
  congr : ∀ {ns ns' : Namespace}, R ns → ns'.externalRef = ns.externalRef →
    ns'.interfaces = ns.interfaces → ns'.messages = ns.messages → ns'.frames = ns.frames → R ns'
  empty : ∀ name externalRef, R (.empty name externalRef)
  interface : ∀ {ns : Namespace} {ctx : Context} {e i interfaces}, R ns →
    ctx.scope = ns.externalRef → ctx.schemaVersion = version →
    (Interface.read ctx e).result = .ok i →
    insertNamed Interface.name i ns.interfaces = some interfaces → R { ns with interfaces }
  message : ∀ {ns : Namespace} {ctx : Context} {e m messages}, R ns →
    ctx.scope = ns.externalRef → ctx.schemaVersion = version → (Message.read ctx e).result = .ok m →
    insertNamed Message.name m ns.messages = some messages → R { ns with messages }
  frame : ∀ {ns : Namespace} {ctx : Context} {e f frames}, R ns →
    ctx.scope = ns.externalRef → ctx.schemaVersion = version → (Frame.read ctx e).result = .ok f →
    insertNamed Frame.name f ns.frames = some frames → R { ns with frames }

theorem Upkeep.everywhere_empty {version : Nat} (hR : Upkeep version R)
    (name externalRef : String) : (Namespace.empty name externalRef).Everywhere R :=
  everywhere_iff.mpr ⟨hR.empty _ _, fun _ hn => absurd hn List.not_mem_nil⟩

/-! ### Properties of the parts -/

/-- The interfaces, messages and frames of a namespace have properties of their own. -/
structure AllParts (I : Interface → Prop) (M : Message → Prop) (F : Frame → Prop)
    (ns : Namespace) : Prop where
  interface : ∀ i ∈ ns.interfaces, I i
  message : ∀ m ∈ ns.messages, M m
  frame : ∀ f ∈ ns.frames, F f

theorem forall_of_insertNamed {α : Type} {P : α → Prop} {name : α → String} {x : α}
    {xs ys : List α} (h : insertNamed name x xs = some ys) (hx : P x) (hxs : ∀ y ∈ xs, P y) :
    ∀ y ∈ ys, P y := by
  intro y hy
  rcases (mem_of_insertNamed h y).mp hy with rfl | hy
  · exact hx
  · exact hxs y hy

/-- **What all readers of declarations establish is kept up.** -/
theorem upkeep_allParts {version : Nat} {I : Interface → Prop} {M : Message → Prop}
    {F : Frame → Prop}
    (hI : ∀ ctx e, ctx.schemaVersion = version → (Interface.read ctx e).Yields I)
    (hM : ∀ ctx e, ctx.schemaVersion = version → (Message.read ctx e).Yields M)
    (hF : ∀ ctx e, ctx.schemaVersion = version → (Frame.read ctx e).Yields F) :
    Upkeep version (AllParts I M F) where
  congr := by
    intro ns ns' h _ hi hm hf
    refine ⟨?_, ?_, ?_⟩
    · rw [hi]
      exact h.interface
    · rw [hm]
      exact h.message
    · rw [hf]
      exact h.frame
  empty _ _ := ⟨fun _ hi => absurd hi List.not_mem_nil, fun _ hm => absurd hm List.not_mem_nil,
    fun _ hf => absurd hf List.not_mem_nil⟩
  interface h _ hversion hread hinsert :=
    ⟨forall_of_insertNamed hinsert (hI _ _ hversion _ hread) h.interface, h.message, h.frame⟩
  message h _ hversion hread hinsert :=
    ⟨h.interface, forall_of_insertNamed hinsert (hM _ _ hversion _ hread) h.message, h.frame⟩
  frame h _ hversion hread hinsert :=
    ⟨h.interface, h.message, forall_of_insertNamed hinsert (hF _ _ hversion _ hread) h.frame⟩

end Namespace

/-! ### What an element adds -/

namespace Population

open Namespace

variable {R : Namespace → Prop} {setting : Setting} {p q : Population} {e : Element}

/-- All namespaces of `q` have the property if those of `p` have it. -/
def Keeps (R : Namespace → Prop) (p q : Population) : Prop :=
  p.scope.Everywhere R → q.scope.Everywhere R

theorem keeps_ofPass {line : Nat} {pass : Pass Population}
    (h : ∀ q, pass.result = .ok q → Keeps R p q) :
    Keeps R p (Growth.ofPass p line pass).population := by
  rcases Growth.population_ofPass p line pass with hp | hp
  · rw [hp]
    exact id
  · exact h _ hp

theorem keeps_addField (hR : Upkeep setting.version R) (h : (addField setting p e).result = .ok q) :
    Keeps R p q := by
  obtain ⟨merged, field, fields, -, -, -, rfl⟩ := addField_eq_ok.mp h
  exact fun hp => hp.of_own rfl fun hown => hR.congr hown rfl rfl rfl rfl

theorem keeps_addInterface (hR : Upkeep setting.version R)
    (h : (addInterface setting p e).result = .ok q) : Keeps R p q := by
  obtain ⟨i, interfaces, hread, hinsert, rfl⟩ := addInterface_eq_ok h
  exact fun hp => hp.of_own rfl fun hown => hR.interface hown rfl rfl hread hinsert

theorem keeps_addMessage (hR : Upkeep setting.version R)
    (h : (addMessage setting p e).result = .ok q) : Keeps R p q := by
  obtain ⟨m, messages, hread, hinsert, rfl⟩ := addMessage_eq_ok h
  exact fun hp => hp.of_own rfl fun hown => hR.message hown rfl rfl hread hinsert

theorem keeps_addFrame (hR : Upkeep setting.version R) (h : (addFrame setting p e).result = .ok q) :
    Keeps R p q := by
  obtain ⟨f, frames, hread, hinsert, rfl⟩ := addFrame_eq_ok h
  exact fun hp => hp.of_own rfl fun hown => hR.frame hown rfl rfl hread hinsert

theorem everywhere_nested (hR : Upkeep setting.version R) {name : String}
    (h : p.scope.Everywhere R) : (p.nested setting name).Everywhere R := by
  unfold nested
  cases hc : p.scope.child? name with
  | none => exact hR.everywhere_empty _ _
  | some c => exact (everywhere_iff.mp h).2 c (List.mem_of_find?_eq_some hc)

theorem everywhere_putNested (hR : Upkeep setting.version R) {scope : Namespace}
    {catalogue : Catalogue} (h : p.scope.Everywhere R) (hscope : scope.Everywhere R) :
    (p.putNested scope catalogue).scope.Everywhere R := by
  obtain ⟨hns, hall⟩ := everywhere_iff.mp h
  refine everywhere_iff.mpr ⟨hR.congr hns rfl rfl rfl rfl, fun n hn => ?_⟩
  rcases mem_of_mem_putNamed hn with rfl | hn
  · exact hscope
  · exact hall n hn

theorem keeps_addNested (hR : Upkeep setting.version R) {fill : Population → Growth}
    (h : ∀ q, Keeps R q (fill q).population) :
    Keeps R p (addNested setting p e fill).population := by
  intro hp
  have hnested (name : String) : (p.nested setting name).Everywhere R := everywhere_nested hR hp
  rcases addNested_cases setting p e fill with hq | ⟨name, -, hq | ⟨description, hq⟩⟩
  · rw [hq]
    exact hp
  · rw [hq]
    exact everywhere_putNested hR hp (hnested name)
  · rw [hq]
    refine everywhere_putNested hR hp (h _ ?_)
    exact (hnested name).of_own rfl fun hown => hR.congr hown rfl rfl rfl rfl

theorem keeps_law (setting : Setting) (hR : Upkeep setting.version R) :
    Growth.Law setting fun p g => Keeps R p g.population where
  warnings _ _ := id
  andThen h h' := fun hp => h' (h hp)
  field _ _ := keeps_ofPass fun _ => keeps_addField hR
  interface _ _ := keeps_ofPass fun _ => keeps_addInterface hR
  message _ _ := keeps_ofPass fun _ => keeps_addMessage hR
  frame _ _ := keeps_ofPass fun _ => keeps_addFrame hR
  nested _ _ _ := keeps_addNested hR

end Population

/-- **A property that is kept up holds of all namespaces after an element is added**, if it held of
all of them before. -/
theorem Namespace.Upkeep.add {R : Namespace → Prop} {setting : Setting}
    (hR : Upkeep setting.version R) (properties : List String) {p : Population} (e : Element)
    (h : p.scope.Everywhere R) : (Population.add setting properties p e).population.scope.Everywhere R :=
  (Population.keeps_law setting hR).add properties e p h

end WireSchema
