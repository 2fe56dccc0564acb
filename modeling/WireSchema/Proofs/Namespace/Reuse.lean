import WireSchema.Proofs.Field.Arena
import WireSchema.Proofs.Field.Rereading
import WireSchema.Proofs.Namespace.Growth
import WireSchema.Proofs.Text.Sorted

/-! # Declarations that reuse a field

The elements of accepted fields are kept as they are merged at the top: a declaration that reuses
one reads everything inside of it once more, in its own namespace. A declaration that has nothing
but a name and what it reuses is the field that it reuses under another name
(`field_of_onlyReuses`), as long as what is reused inside is the same there. -/

namespace WireSchema

open Markup

/-! ### Elements of accepted fields -/

namespace Population

variable {setting : Setting} {p q r : Population} {e : Element}

/-- The second population comes later: it has the elements of all fields of the first one. -/
def Earlier (p q : Population) : Prop := p.catalogue.bases <:+ q.catalogue.bases

theorem earlier_ofPass {line : Nat} {pass : Pass Population}
    (h : ∀ q, pass.result = .ok q → Earlier p q) :
    Earlier p (Growth.ofPass p line pass).population := by
  rcases Growth.population_ofPass p line pass with heq | hok
  · rw [heq]
    exact List.suffix_rfl
  · exact h _ hok

theorem earlier_addField (h : (addField setting p e).result = .ok q) : Earlier p q := by
  obtain ⟨merged, field, fields, -, -, -, rfl⟩ := addField_eq_ok.mp h
  exact List.suffix_cons _ _

theorem earlier_addNested {fill : Population → Growth}
    (h : ∀ q, Earlier q (fill q).population) :
    Earlier p (addNested setting p e fill).population := by
  rcases addNested_cases setting p e fill with heq | ⟨name, -, heq | ⟨description, heq⟩⟩
  · rw [heq]
    exact List.suffix_rfl
  · rw [heq]
    exact List.suffix_rfl
  · rw [heq]
    exact h ⟨{ p.nested setting name with description }, p.catalogue⟩

theorem earlier_law (setting : Setting) : Growth.Law setting fun p g => Earlier p g.population where
  warnings p ws := List.suffix_rfl
  andThen h h' := h.trans h'
  field p e := earlier_ofPass fun q => earlier_addField
  interface p e := earlier_ofPass fun q h => by
    obtain ⟨i, interfaces, -, -, rfl⟩ := addInterface_eq_ok h
    exact List.suffix_rfl
  message p e := earlier_ofPass fun q h => by
    obtain ⟨m, messages, -, -, rfl⟩ := addMessage_eq_ok h
    exact List.suffix_rfl
  frame p e := earlier_ofPass fun q h => by
    obtain ⟨f, frames, -, -, rfl⟩ := addFrame_eq_ok h
    exact List.suffix_rfl
  nested p e fill h := earlier_addNested h

/-- **No element of an accepted field is lost.** -/
theorem earlier_add (setting : Setting) (properties : List String) (p : Population) (e : Element) :
    Earlier p (add setting properties p e).population :=
  (earlier_law setting).add properties e p

/-- An accepted field: where it was declared, the element over what it reuses, and what was read. -/
structure Accepted (setting : Setting) (p : Population) (e merged : Element) (f : Field)
    (q : Population) : Prop where
  merge : (p.context setting).merge e = .ok merged
  added : (addField setting p e).result = .ok q
  field : q.catalogue.arena.get? p.catalogue.arena.size = some f

theorem accepted_iff {merged : Element} {f : Field} :
    Accepted setting p e merged f q ↔
      (p.context setting).merge e = .ok merged ∧
      (readMerged (p.context setting)
        (readField (p.context setting) ((p.context setting).depth e)) .inNamespace merged).result =
          .ok f ∧
      ∃ fields, insertNamed Prod.fst (f.name, p.catalogue.arena.size) p.scope.fields = some fields ∧
        q = ⟨{ p.scope with fields },
          ⟨p.catalogue.arena.push f, (f.externalRef, merged) :: p.catalogue.bases⟩⟩ := by
  constructor
  · rintro ⟨hmerge, hadded, hfield⟩
    obtain ⟨merged', f', fields, hmerge', hread, hinsert, rfl⟩ := addField_eq_ok.mp hadded
    obtain rfl : merged = merged' := Except.ok.inj (hmerge.symm.trans hmerge')
    rw [Arena.get?_push, if_pos rfl, Option.some.injEq] at hfield
    subst hfield
    exact ⟨hmerge, hread, fields, hinsert, rfl⟩
  · rintro ⟨hmerge, hread, fields, hinsert, rfl⟩
    refine ⟨hmerge, addField_eq_ok.mpr ⟨merged, f, fields, hmerge, hread, hinsert, rfl⟩, ?_⟩
    rw [Arena.get?_push, if_pos rfl]

theorem exists_accepted (h : (addField setting p e).result = .ok q) :
    ∃ merged f, Accepted setting p e merged f q := by
  obtain ⟨merged, f, fields, hmerge, hread, hinsert, heq⟩ := addField_eq_ok.mp h
  exact ⟨merged, f, accepted_iff.mpr ⟨hmerge, hread, fields, hinsert, heq⟩⟩

/-- A declaration that reuses the element. -/
structure Reuses (setting : Setting) (r : Population) (e base : Element) : Prop where
  tag : e.tag = base.tag
  path : ∃ path, (e.props ["reuse"]).single "reuse" = .ok (some path) ∧
    (r.context setting).base? path = some base

theorem Reuses.merge {base : Element} {kind : FieldKind} (h : Reuses setting r e base)
    (hkind : FieldKind.ofTag? e.tag = some kind) :
    (r.context setting).merge e = .ok (e.inheritFrom base kind.properties) := by
  obtain ⟨path, hpath, hbase⟩ := h.path
  unfold Context.merge
  simp only [hkind, hpath, hbase]
  rw [if_pos (beq_iff_eq.mpr h.tag.symm)]

end Population

/-! ### Levels -/

theorem Markup.Element.sizeAll_le_of_suffix {xs ys : List Element} (h : xs <:+ ys) :
    sizeAll xs ≤ sizeAll ys := by
  obtain ⟨zs, rfl⟩ := h
  induction zs with
  | nil => exact Nat.le_refl _
  | cons z zs ih =>
    rw [List.cons_append, sizeAll]
    omega

theorem Context.size_le_of_merge {ctx : Context} {e merged : Element}
    (h : ctx.merge e = .ok merged) : e.size ≤ merged.size := by
  obtain ⟨kind, -, rfl | ⟨base, -, -, rfl⟩⟩ := merge_eq_ok h
  · exact Nat.le_refl _
  · exact Element.size_le_inheritFrom

namespace Population

variable {setting : Setting} {p q r : Population} {eB eD mB : Element} {B : Field}

theorem Accepted.depth_le (h : Accepted setting p eB mB B q) (hlater : q.Earlier r) :
    (p.context setting).depth eB ≤ (r.context setting).depth eD := by
  have hsize := Context.size_le_of_merge h.merge
  have hbases := Element.sizeAll_le_of_suffix (hlater.map (·.2))
  obtain ⟨-, -, fields, -, rfl⟩ := accepted_iff.mp h
  rw [List.map_cons, Element.sizeAll] at hbases
  have hle : eB.size + Element.sizeAll (p.catalogue.bases.map (·.2)) ≤
      eD.size + Element.sizeAll (r.catalogue.bases.map (·.2)) :=
    calc eB.size + Element.sizeAll (p.catalogue.bases.map (·.2))
      _ ≤ mB.size + Element.sizeAll (p.catalogue.bases.map (·.2)) := Nat.add_le_add_right hsize _
      _ ≤ Element.sizeAll (r.catalogue.bases.map (·.2)) := hbases
      _ ≤ eD.size + Element.sizeAll (r.catalogue.bases.map (·.2)) := Nat.le_add_left _ _
  exact Nat.mul_le_mul (Nat.mul_le_mul_left 2 hle)
    (Nat.add_le_add_right (Nat.mul_le_mul_left 2 hle) 1)

end Population

/-! ### Declarations with nothing of their own -/

theorem FieldKind.contains_name (k : FieldKind) :
    k.properties.contains "name" = ["name"].contains "name" := by
  cases k <;> decide

/-- The element has nothing but a name and what it reuses. -/
def Markup.Element.OnlyReuses (e : Element) : Prop :=
  (∀ a ∈ e.attrs, a.1 = "name" ∨ a.1 = "reuse") ∧
    ∀ c ∈ e.children, c.tag = "name" ∨ c.tag = "reuse"

namespace Markup.Element

variable {e base : Element} {names : List String}

theorem OnlyReuses.all_eq_nil (h : e.OnlyReuses) {key : String} (hname : key ≠ "name")
    (hreuse : key ≠ "reuse") : (e.props names).all key = [] := by
  rw [all_props, List.append_eq_nil_iff, List.map_eq_nil_iff, List.filter_eq_nil_iff]
  refine ⟨fun a ha heq => ?_, List.filterMap_eq_nil_iff.mpr fun c hc => ?_⟩
  · obtain rfl := beq_iff_eq.mp heq
    exact (h.1 a ha).elim hname hreuse
  · obtain ⟨hmem, heq⟩ := List.mem_filter.mp hc
    rw [Bool.and_eq_true, beq_iff_eq] at heq
    obtain ⟨-, rfl⟩ := heq
    exact ((h.2 c hmem).elim hname hreuse).elim

theorem OnlyReuses.contains_eq_false (h : e.OnlyReuses) {key : String} (hname : key ≠ "name")
    (hreuse : key ≠ "reuse") : (e.props names).contains key = false := by
  rw [← Bool.not_eq_true, Props.contains_iff_all, h.all_eq_nil hname hreuse]
  exact fun h => h rfl

/-- **An element with nothing of its own has what its base has.** -/
theorem OnlyReuses.alike {ctx ctx' : Context} {core core' : FieldCore} (h : e.OnlyReuses)
    (hversion : ctx'.schemaVersion = ctx.schemaVersion) (hendian : ctx'.endian = ctx.endian)
    (hwindow : core'.window = core.window) (hline : core.line = base.line)
    (hline' : core'.line = e.line) :
    Alike ctx ctx' core core' (base.props names) ((e.inheritFrom base names).props names) base
      (e.inheritFrom base names) where
  version := hversion
  endian := hendian
  window := hwindow
  line := hline
  line' := hline'
  all key hname hreuse := by
    rw [all_inheritFrom hreuse, if_neg]
    rw [h.contains_eq_false hname hreuse]
    exact fun hown => hown.elim hname Bool.false_ne_true
  children accept hname hreuse := by
    have hne {tag : String} (htag : accept tag = true) : tag ≠ "name" ∧ tag ≠ "reuse" := by
      constructor
      · rintro rfl
        exact Bool.false_ne_true (hname.symm.trans htag)
      · rintro rfl
        exact Bool.false_ne_true (hreuse.symm.trans htag)
    rw [filter_children_inheritFrom fun tag htag _ =>
      ⟨(hne htag).1, h.contains_eq_false (hne htag).1 (hne htag).2⟩]
    have hown : e.children.filter (fun c => accept c.tag) = [] :=
      List.filter_eq_nil_iff.mpr fun c hc htag => (h.2 c hc).elim (hne htag).1 (hne htag).2
    rw [hown, List.append_nil]

/-- The core of an element with nothing of its own is that of its base, under its own name. -/
theorem OnlyReuses.readCore {ctx ctx' : Context} {kind : FieldKind} {core : FieldCore}
    {name : String} (h : e.OnlyReuses) (hversion : ctx'.schemaVersion = ctx.schemaVersion)
    (hendian : ctx'.endian = ctx.endian)
    (hcore : WireSchema.readCore ctx .inNamespace (base.props kind.properties) base = .ok core)
    (hname : (e.props ["name"]).single "name" = .ok (some name))
    (hvalid : Literal.isName name = true) :
    WireSchema.readCore ctx' .inNamespace
      ((e.inheritFrom base kind.properties).props kind.properties)
      (e.inheritFrom base kind.properties) =
        .ok { core with name, externalRef := ctx'.externalRef name, line := e.line } := by
  obtain ⟨-, hrole, hwindow, hdisplay, hdescription, -, hline⟩ := readCore_eq_ok.mp hcore
  have halike : Alike ctx ctx' core
      { core with name, externalRef := ctx'.externalRef name, line := e.line }
      (base.props kind.properties) ((e.inheritFrom base kind.properties).props kind.properties) base
      (e.inheritFrom base kind.properties) := h.alike hversion hendian rfl hline rfl
  refine readCore_eq_ok.mpr ⟨Or.inl ⟨?_, hvalid⟩, ?_, ?_, ?_, ?_, rfl, rfl⟩
  · rw [single_inheritFrom (by decide), if_pos (Or.inl rfl), Props.single_eq,
      all_props_congr kind.contains_name, ← Props.single_eq]
    exact hname
  · exact (halike.parsedD _ (by decide) (by decide) _ _).trans hrole
  · rw [hversion]
    obtain ⟨_, hwindow', rfl⟩ := halike.carries_windowRead core.name name _ hwindow
    exact hwindow'
  · exact (halike.textOf _ (by decide) (by decide)).trans hdisplay
  · exact (halike.textOf _ (by decide) (by decide)).trans hdescription

end Markup.Element

namespace Population

variable {setting : Setting} {p q r : Population} {eB eD mB : Element} {B : Field}

/-- **A declaration with a name and what it reuses is the field that it reuses.** -/
theorem field_of_onlyReuses {name : String} (hB : Accepted setting p eB mB B q)
    (hlater : q.Earlier r) (hreuses : Reuses setting r eD mB) (honly : eD.OnlyReuses)
    (hname : (eD.props ["name"]).single "name" = .ok (some name))
    (hvalid : Literal.isName name = true) (hfree : ∀ x ∈ r.scope.fields, x.1 ≠ name)
    (hbase : ∀ c path, mB.Inner c → (p.context setting).Draws c path →
      (r.context setting).base? path = (p.context setting).base? path) :
    ∃ mD r', Accepted setting r eD mD
      (.mk { B.core with name, externalRef := qualify r.scope.externalRef name, line := eD.line }
        (B.body.atLine eD.line)) r' := by
  obtain ⟨-, hread, -⟩ := accepted_iff.mp hB
  obtain ⟨kind, hkind, hcore, -⟩ := readMerged_eq_ok.mp hread
  obtain ⟨-, -, -, -, -, -, hline⟩ := readCore_eq_ok.mp hcore
  have htag : FieldKind.ofTag? eD.tag = some kind := by rw [hreuses.tag, hkind]
  have hversion : (r.context setting).schemaVersion = (p.context setting).schemaVersion := rfl
  have hendian : (r.context setting).endian = (p.context setting).endian := rfl
  -- the properties are those of the base, and what is inside is read there as it was for the base
  have hcoreD := honly.readCore hversion hendian hcore hname hvalid
  have hnested : (readField (p.context setting) ((p.context setting).depth eB)).CarriesInside
      (readField (r.context setting) ((r.context setting).depth eD)) mB :=
    fun pos c hpos hc => carries_readField hversion hendian (hB.depth_le hlater) pos c hpos
      fun path => hbase c path hc
  have htagD : (eD.inheritFrom mB kind.properties).tag = mB.tag := hreuses.tag
  have halike : Alike (p.context setting) (r.context setting) B.core
      { B.core with name, externalRef := qualify r.scope.externalRef name, line := eD.line }
      (mB.props kind.properties) ((eD.inheritFrom mB kind.properties).props kind.properties) mB
      (eD.inheritFrom mB kind.properties) := honly.alike hversion hendian rfl hline rfl
  have hreadD := readMerged_of_alike hread hkind htagD halike hnested hcoreD rfl
  obtain ⟨fields, hinsert⟩ := exists_insertNamed (x := (name, r.catalogue.arena.size)) hfree
  exact ⟨_, _, accepted_iff.mpr ⟨hreuses.merge htag, hreadD, fields, hinsert, rfl⟩⟩

/-! ### A bundle with a member that reuses -/

/-- An integer. -/
def integerElement : Element := ⟨"int", [("name", "X"), ("type", "uint8")], [], "", 2⟩

/-- A member that reuses it. -/
def memberElement : Element := ⟨"int", [("name", "m"), ("reuse", "X")], [], "", 3⟩

/-- A bundle with the member. -/
def bundleElement : Element := ⟨"bundle", [("name", "B")], [memberElement], "", 3⟩

/-- A bundle that has nothing but a name and the path of what it reuses. -/
def reusingElement (path : String) : Element :=
  ⟨"bundle", [("name", "D"), ("reuse", path)], [], "", 4⟩

/-- The namespace `N` with the fields that the elements declare. -/
def withFields (es : List Element) : Population :=
  (Growth.forEach (addField ⟨0, .little⟩) ⟨.empty "N" "N", ⟨.empty, []⟩⟩ es).population

theorem accepted_bundleElement :
    ∃ B, Accepted ⟨0, .little⟩ (withFields [integerElement]) bundleElement bundleElement B
      (withFields [integerElement, bundleElement]) ∧ B.members.map (·.name) = ["m"] := by
  have hfield : ((withFields [integerElement, bundleElement]).catalogue.arena.get?
      (withFields [integerElement]).catalogue.arena.size).map (fun f => f.members.map (·.name)) =
        some ["m"] := by
    decide +kernel
  obtain ⟨B, hB, hnames⟩ := Option.map_eq_some_iff.mp hfield
  exact ⟨B, ⟨rfl, rfl, hB⟩, hnames⟩

theorem onlyReuses_reusingElement (path : String) : (reusingElement path).OnlyReuses :=
  ⟨by simp [reusingElement], by simp [reusingElement]⟩

theorem draws_memberElement {path : String}
    (h : ((withFields [integerElement]).context ⟨0, .little⟩).Draws memberElement path) :
    path = "X" := by
  cases h with
  | own h => exact (Option.some.inj (Except.ok.inj h)).symm
  | inner hmerge hinner _ =>
    have hmerged : ((withFields [integerElement]).context ⟨0, .little⟩).merge memberElement =
        .ok ⟨"int", [("type", "uint8"), ("name", "m")], [], "", 3⟩ := rfl
    obtain rfl := Except.ok.inj (hmerged.symm.trans hmerge)
    simp [Element.Inner] at hinner

/-- In the namespace of the bundle, a declaration that only reuses the bundle is the bundle under
another name. -/
theorem field_of_reusingElement :
    ∃ B mD r, Accepted ⟨0, .little⟩ (withFields [integerElement]) bundleElement bundleElement B
        (withFields [integerElement, bundleElement]) ∧
      B.members.map (·.name) = ["m"] ∧
      Accepted ⟨0, .little⟩ (withFields [integerElement, bundleElement]) (reusingElement "B") mD
        (.mk { B.core with name := "D", externalRef := "N.D", line := 4 } (B.body.atLine 4)) r := by
  obtain ⟨B, hB, hnames⟩ := accepted_bundleElement
  have hreuses : Reuses ⟨0, .little⟩ (withFields [integerElement, bundleElement])
      (reusingElement "B") bundleElement := ⟨rfl, "B", rfl, rfl⟩
  obtain ⟨mD, r, hD⟩ := field_of_onlyReuses hB List.suffix_rfl hreuses
    (onlyReuses_reusingElement "B") rfl (by decide +kernel) (by decide +kernel)
    fun c path hc h => by
      obtain rfl : c = memberElement := by
        simpa [Element.Inner, bundleElement, memberElement] using hc.2
      obtain rfl := draws_memberElement h
      rfl
  exact ⟨B, mD, r, hB, hnames, hD⟩

/-- At the root, a declaration that only reuses the bundle is refused: what the member of the bundle
reuses is not found there. -/
theorem refused_reusingElement :
    ∃ B r, Accepted ⟨0, .little⟩ (withFields [integerElement]) bundleElement bundleElement B
        (withFields [integerElement, bundleElement]) ∧
      r = putNested ⟨.root, ⟨.empty, []⟩⟩ (withFields [integerElement, bundleElement]).scope
        (withFields [integerElement, bundleElement]).catalogue ∧
      (withFields [integerElement, bundleElement]).Earlier r ∧
      Reuses ⟨0, .little⟩ r (reusingElement "N.B") bundleElement ∧
      (reusingElement "N.B").OnlyReuses ∧
      ((reusingElement "N.B").props ["name"]).single "name" = .ok (some "D") ∧
      Literal.isName "D" = true ∧ (∀ x ∈ r.scope.fields, x.1 ≠ "D") ∧
      (addField ⟨0, .little⟩ r (reusingElement "N.B")).result =
        .error (.error (.invalidMembers "D")) := by
  obtain ⟨B, hB, -⟩ := accepted_bundleElement
  exact ⟨B, _, hB, rfl, List.suffix_rfl, ⟨rfl, "N.B", rfl, rfl⟩, onlyReuses_reusingElement "N.B",
    rfl, by decide +kernel, by decide +kernel, rfl⟩

end Population

end WireSchema
