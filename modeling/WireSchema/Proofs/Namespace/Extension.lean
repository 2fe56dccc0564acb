import Mathlib.Data.List.Perm.Basic
import WireSchema.Proofs.Namespace.Growth
import WireSchema.Proofs.Namespace.Lookup

/-! # A population only gains

What is added to a population leaves the fields in the arena where they are, keeps all namespaces
orderly, and lists each new place of the arena once (`extends_add`). -/

namespace WireSchema

open Markup

/-! ### Orderly namespaces -/

namespace Namespace

variable {a b : Arena} {ns ns' : Namespace}

theorem Orderly.mono (hab : ∀ i f, a.get? i = some f → b.get? i = some f) (h : ns.Orderly a) :
    ns.Orderly b := by
  refine ⟨h.sorted_fields, fun p hp => ?_, h.sorted_namespaces, h.nested⟩
  obtain ⟨hname, f, hf, href⟩ := h.field p hp
  exact ⟨hname, f, hab _ _ hf, href⟩

theorem AllOrderly.mono (hab : ∀ i f, a.get? i = some f → b.get? i = some f)
    (h : ns.AllOrderly a) : ns.AllOrderly b :=
  fun n hn => (h n hn).mono hab

/-- Only the path of a namespace and what it has in it say whether it is orderly. -/
theorem AllOrderly.congr (he : ns'.externalRef = ns.externalRef) (hf : ns'.fields = ns.fields)
    (hn : ns'.namespaces = ns.namespaces) (h : ns.AllOrderly a) : ns'.AllOrderly a := by
  obtain ⟨hns, hall⟩ := allOrderly_iff.mp h
  refine allOrderly_iff.mpr ⟨⟨?_, ?_, ?_, ?_⟩, ?_⟩
  · rw [hf]; exact hns.sorted_fields
  · rw [hf, he]; exact hns.field
  · rw [hn]; exact hns.sorted_namespaces
  · rw [hn, he]; exact hns.nested
  · rw [hn]; exact hall

theorem allOrderly_empty (a : Arena) (name externalRef : String) :
    (empty name externalRef).AllOrderly a := by
  refine allOrderly_iff.mpr ⟨⟨List.Pairwise.nil, ?_, List.Pairwise.nil, ?_⟩, ?_⟩
  · intro p hp
    simp [empty] at hp
  · intro n hn
    simp [empty] at hn
  · intro n hn
    simp [empty] at hn

theorem allFields_empty (name externalRef : String) : (empty name externalRef).allFields = [] := by
  simp [allFields_eq, empty]

theorem allFields_congr (hf : ns'.fields = ns.fields) (hn : ns'.namespaces = ns.namespaces) :
    ns'.allFields = ns.allFields := by
  rw [allFields_eq, allFields_eq, hf, hn]

end Namespace

/-! ### What is gained -/

namespace Population

/-- `q` has all that `p` has, and the places that are new in the arena are listed once each. -/
structure Extends (p q : Population) : Prop where
  name : q.scope.name = p.scope.name
  externalRef : q.scope.externalRef = p.scope.externalRef
  size_le : p.catalogue.arena.size ≤ q.catalogue.arena.size
  kept : ∀ i f, p.catalogue.arena.get? i = some f → q.catalogue.arena.get? i = some f
  orderly : p.scope.AllOrderly p.catalogue.arena → q.scope.AllOrderly q.catalogue.arena
  listed : p.scope.AllOrderly p.catalogue.arena →
    (q.scope.allFields ++ List.range p.catalogue.arena.size).Perm
      (p.scope.allFields ++ List.range q.catalogue.arena.size)

variable {setting : Setting} {p q r : Population} {e : Element}

theorem Extends.of_same (hname : q.scope.name = p.scope.name)
    (hext : q.scope.externalRef = p.scope.externalRef)
    (hfields : q.scope.fields = p.scope.fields)
    (hnamespaces : q.scope.namespaces = p.scope.namespaces)
    (harena : q.catalogue.arena = p.catalogue.arena) : Extends p q := by
  refine ⟨hname, hext, by rw [harena], fun i f h => by rw [harena]; exact h, fun h => ?_,
    fun _ => ?_⟩
  · rw [harena]
    exact h.congr hext hfields hnamespaces
  · rw [Namespace.allFields_congr hfields hnamespaces, harena]

theorem Extends.refl (p : Population) : Extends p p := .of_same rfl rfl rfl rfl rfl

theorem Extends.trans (h : Extends p q) (h' : Extends q r) : Extends p r := by
  refine ⟨h'.name.trans h.name, h'.externalRef.trans h.externalRef, h.size_le.trans h'.size_le,
    fun i f hi => h'.kept i f (h.kept i f hi), fun ho => h'.orderly (h.orderly ho), fun ho => ?_⟩
  rw [List.perm_iff_count]
  intro i
  have h1 := (h.listed ho).count_eq i
  have h2 := (h'.listed (h.orderly ho)).count_eq i
  rw [List.count_append, List.count_append] at h1 h2 ⊢
  omega

/-! ### The steps -/

theorem extends_addField (h : (addField setting p e).result = .ok q) : Extends p q := by
  obtain ⟨merged, field, fields, -, hread, hinsert, rfl⟩ := addField_eq_ok.mp h
  obtain ⟨hname, href⟩ := core_of_readMerged hread
  have hkept : ∀ i f, p.catalogue.arena.get? i = some f →
      (p.catalogue.arena.push field).get? i = some f := by
    intro i f hf
    rw [Arena.get?_push, if_neg (Nat.ne_of_lt (Arena.lt_size_of_get? hf))]
    exact hf
  refine ⟨rfl, rfl, ?_, hkept, fun ho => ?_, fun _ => ?_⟩
  · simp only [Arena.size_push]
    omega
  · obtain ⟨hns, hall⟩ := Namespace.allOrderly_iff.mp ho
    refine Namespace.allOrderly_iff.mpr ⟨⟨sortedBy_insertNamed hns.sorted_fields hinsert, ?_,
      hns.sorted_namespaces, hns.nested⟩, fun n hn => (hall n hn).mono hkept⟩
    intro x hx
    rcases (mem_of_insertNamed hinsert x).mp hx with rfl | hx
    · exact ⟨hname, field, by rw [Arena.get?_push, if_pos rfl], href⟩
    · exact ((hns.mono hkept).field x hx)
  · rw [List.perm_iff_count]
    intro i
    have hcount : (fields.map (·.2)).count i =
        (p.scope.fields.map (·.2)).count i + [p.catalogue.arena.size].count i := by
      rw [((insertNamed_perm hinsert).map _).count_eq, List.map_cons, List.count_cons,
        List.count_singleton]
    simp only [Namespace.allFields_eq, Arena.size_push, List.count_append, hcount,
      List.range_succ]
    omega

theorem extends_addInterface (h : (addInterface setting p e).result = .ok q) : Extends p q := by
  obtain ⟨i, interfaces, -, -, rfl⟩ := addInterface_eq_ok h
  exact .of_same rfl rfl rfl rfl rfl

theorem extends_addMessage (h : (addMessage setting p e).result = .ok q) : Extends p q := by
  obtain ⟨m, messages, -, -, rfl⟩ := addMessage_eq_ok h
  exact .of_same rfl rfl rfl rfl rfl

theorem extends_addFrame (h : (addFrame setting p e).result = .ok q) : Extends p q := by
  obtain ⟨f, frames, -, -, rfl⟩ := addFrame_eq_ok h
  exact .of_same rfl rfl rfl rfl rfl

theorem extends_ofPass {line : Nat} {pass : Pass Population}
    (h : ∀ q, pass.result = .ok q → Extends p q) :
    Extends p (Growth.ofPass p line pass).population := by
  rcases Growth.population_ofPass p line pass with hp | hp
  · rw [hp]
    exact .refl p
  · exact h _ hp

/-! ### Nested namespaces -/

section nested
variable {name : String}

theorem name_nested (setting : Setting) (p : Population) (name : String) :
    (p.nested setting name).name = name := by
  unfold nested
  cases hc : p.scope.child? name with
  | none => rfl
  | some c =>
    have hkey := List.find?_some hc
    exact beq_iff_eq.mp hkey

theorem externalRef_nested (ho : p.scope.AllOrderly p.catalogue.arena) :
    (p.nested setting name).externalRef = qualify p.scope.externalRef name := by
  unfold nested
  cases hc : p.scope.child? name with
  | none => rfl
  | some c =>
    obtain ⟨hns, -⟩ := Namespace.allOrderly_iff.mp ho
    obtain ⟨hmem, rfl⟩ := (findNamed?_eq_some_iff hns.sorted_namespaces).mp hc
    exact (hns.nested c hmem).2

theorem allOrderly_nested (ho : p.scope.AllOrderly p.catalogue.arena) :
    (p.nested setting name).AllOrderly p.catalogue.arena := by
  unfold nested
  cases hc : p.scope.child? name with
  | none => exact Namespace.allOrderly_empty _ _ _
  | some c =>
    obtain ⟨hns, hall⟩ := Namespace.allOrderly_iff.mp ho
    exact hall c ((findNamed?_eq_some_iff hns.sorted_namespaces).mp hc).1

theorem allFields_nested (setting : Setting) (p : Population) (name : String) :
    (p.nested setting name).allFields =
      (p.scope.child? name).toList.flatMap Namespace.allFields := by
  unfold nested
  cases p.scope.child? name with
  | none => simp [Namespace.allFields_empty]
  | some c => simp

theorem extends_putNested (hname : Literal.isName name = true)
    (h : Extends ⟨p.nested setting name, p.catalogue⟩ q) :
    Extends p (p.putNested q.scope q.catalogue) := by
  refine ⟨rfl, rfl, h.size_le, h.kept, fun ho => ?_, fun ho => ?_⟩
  · obtain ⟨hns, hall⟩ := Namespace.allOrderly_iff.mp ho
    have hq : q.scope.AllOrderly q.catalogue.arena :=
      h.orderly (allOrderly_nested ho)
    refine Namespace.allOrderly_iff.mpr ⟨⟨hns.sorted_fields, (hns.mono h.kept).field,
      sortedBy_putNamed hns.sorted_namespaces, ?_⟩, ?_⟩
    · intro n hn
      rcases mem_of_mem_putNamed hn with rfl | hn
      · rw [h.name, h.externalRef]
        dsimp only
        rw [name_nested]
        exact ⟨hname, externalRef_nested ho⟩
      · exact hns.nested n hn
    · intro n hn
      rcases mem_of_mem_putNamed hn with rfl | hn
      · exact hq
      · exact (hall n hn).mono h.kept
  · obtain ⟨hns, hall⟩ := Namespace.allOrderly_iff.mp ho
    have hkey : q.scope.name = name := h.name.trans (name_nested setting p name)
    have hput := flatMap_putNamed_perm (x := q.scope) Namespace.allFields hns.sorted_namespaces
    rw [hkey, ← Namespace.child?, ← allFields_nested setting] at hput
    have hgain := h.listed (allOrderly_nested ho)
    rw [List.perm_iff_count] at hput hgain ⊢
    intro i
    have hput := hput i
    have hgain := hgain i
    rw [Namespace.allFields_eq, Namespace.allFields_eq p.scope]
    simp only [putNested, List.count_append] at hput hgain ⊢
    omega

end nested

theorem extends_addNested {fill : Population → Growth}
    (h : ∀ q, Extends q (fill q).population) :
    Extends p (addNested setting p e fill).population := by
  rcases addNested_cases setting p e fill with hp | ⟨name, hname, hp | ⟨description, hp⟩⟩
  · rw [hp]
    exact .refl p
  · rw [hp]
    exact extends_putNested (isName_of_readName hname)
      (.refl ⟨p.nested setting name, p.catalogue⟩)
  · rw [hp]
    have hsame : Extends ⟨p.nested setting name, p.catalogue⟩
        ⟨{ p.nested setting name with description }, p.catalogue⟩ := .of_same rfl rfl rfl rfl rfl
    exact extends_putNested (isName_of_readName hname) (hsame.trans (h _))

theorem extends_law (setting : Setting) : Growth.Law setting fun p g => Extends p g.population where
  warnings p _ := .refl p
  andThen h h' := h.trans h'
  field _ _ := extends_ofPass fun _ => extends_addField
  interface _ _ := extends_ofPass fun _ => extends_addInterface
  message _ _ := extends_ofPass fun _ => extends_addMessage
  frame _ _ := extends_ofPass fun _ => extends_addFrame
  nested _ _ _ := extends_addNested

/-- **A population only gains by what an element adds.** -/
theorem extends_add (setting : Setting) (properties : List String) (p : Population) (e : Element) :
    Extends p (add setting properties p e).population :=
  (extends_law setting).add properties e p

end Population

end WireSchema
