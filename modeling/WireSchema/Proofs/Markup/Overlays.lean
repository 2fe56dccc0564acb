import WireSchema.Proofs.Markup.Inheritance

/-! # Elements over bases over bases

An element that is laid over a base has a property if it has it itself or the base has it
(`contains_inheritFrom`). What is left out of a base is decided by the properties alone, so that
it makes no difference in a chain of bases where one begins (`inheritFrom_assoc`), unless one of the
elements in the chain reuses a base itself: it would lose this property on the way. -/

namespace WireSchema.Markup.Element

variable {c d e base : Element} {names : List String} {key : String}

/-! ### What is kept of a base -/

/-- No base is named by the element, as an attribute or as a child that is a property. -/
def NamesNoBase (e : Element) (names : List String) : Prop :=
  (e.props names).contains "reuse" = false

/-- An attribute of a base is kept under an element with the properties `own`. -/
def keepsAttr (own : Props) (a : String × String) : Bool :=
  a.1 != "name" && a.1 != "reuse" && !own.contains a.1

/-- A child of a base is kept under an element with the properties `own`. -/
def keepsChild (names : List String) (own : Props) (c : Element) : Bool :=
  !(c.isPropertyChild names && (c.tag == "name" || own.contains c.tag))

theorem attrs_inheritFrom (e base : Element) (names : List String) :
    (e.inheritFrom base names).attrs =
      base.attrs.filter (keepsAttr (e.props names)) ++ e.attrs.filter (·.1 != "reuse") :=
  rfl

theorem children_inheritFrom (e base : Element) (names : List String) :
    (e.inheritFrom base names).children =
      base.children.filter (keepsChild names (e.props names)) ++ e.children :=
  rfl

/-- The children that are no properties are those of the base and then its own. -/
theorem filter_not_isPropertyChild_inheritFrom :
    ((e.inheritFrom base names).children.filter fun c => !c.isPropertyChild names) =
      (base.children.filter fun c => !c.isPropertyChild names) ++
        e.children.filter fun c => !c.isPropertyChild names := by
  rw [children_inheritFrom, List.filter_append, List.filter_filter]
  congr 1
  refine List.filter_congr fun c _ => ?_
  cases hc : c.isPropertyChild names <;> simp [keepsChild, hc]

/-! ### Properties of both -/

theorem NamesNoBase.all_eq_nil (h : e.NamesNoBase names) : (e.props names).all "reuse" = [] := by
  by_contra hne
  exact Bool.false_ne_true (h.symm.trans (Props.contains_iff_all.mpr hne))

/-- What an element reuses is gone once it is laid over its base. -/
theorem NamesNoBase.inheritFrom (he : e.NamesNoBase names) (hbase : base.NamesNoBase names) :
    (e.inheritFrom base names).NamesNoBase names := by
  have hown := he.all_eq_nil
  have hother := hbase.all_eq_nil
  rw [all_props, List.append_eq_nil_iff] at hown hother
  have hattrs : (e.inheritFrom base names).attrs.filter (·.1 == "reuse") = [] := by
    rw [attrs_inheritFrom, List.filter_append, List.filter_filter, List.filter_filter,
      List.append_eq_nil_iff]
    refine ⟨List.filter_eq_nil_iff.mpr fun a _ => ?_, List.filter_eq_nil_iff.mpr fun a _ => ?_⟩
    · cases ha : a.1 == "reuse" with
      | false => simp
      | true => simp [keepsAttr, beq_iff_eq.mp ha]
    · cases ha : a.1 == "reuse" with
      | false => simp
      | true => simp [beq_iff_eq.mp ha]
  have hnone : ((e.inheritFrom base names).props names).all "reuse" = [] := by
    rw [all_props, hattrs, filterMap_children_inheritFrom, hown.2, hother.2]
    simp
  by_contra hsome
  rw [NamesNoBase, Bool.not_eq_false] at hsome
  exact Props.contains_iff_all.mp hsome hnone

/-- **An element over a base has the properties of both**, except for the name of the base. -/
theorem contains_inheritFrom (he : e.NamesNoBase names) (hbase : base.NamesNoBase names)
    (hname : key ≠ "name") : ((e.inheritFrom base names).props names).contains key =
      ((e.props names).contains key || (base.props names).contains key) := by
  by_cases hreuse : key = "reuse"
  · subst hreuse
    rw [he.inheritFrom hbase, he, hbase]
    rfl
  · rw [Bool.eq_iff_iff, Bool.or_eq_true, Props.contains_iff_all, all_inheritFrom hreuse]
    by_cases hown : (e.props names).contains key = true
    · rw [if_pos (Or.inr hown), ← Props.contains_iff_all]
      simp [hown]
    · rw [if_neg (not_or.mpr ⟨hname, hown⟩), ← Props.contains_iff_all]
      simp [hown]

section
variable (hc : c.NamesNoBase names) (hd : d.NamesNoBase names)

include hc hd

theorem keepsAttr_inheritFrom : keepsAttr ((c.inheritFrom d names).props names) =
    fun a => keepsAttr (c.props names) a && keepsAttr (d.props names) a := by
  funext a
  by_cases hname : a.1 = "name"
  · simp [keepsAttr, hname]
  · rw [keepsAttr, contains_inheritFrom hc hd hname, keepsAttr, keepsAttr]
    cases a.1 != "name" <;> cases a.1 != "reuse" <;> cases (c.props names).contains a.1 <;> rfl

theorem keepsChild_inheritFrom : keepsChild names ((c.inheritFrom d names).props names) =
    fun x => keepsChild names (c.props names) x && keepsChild names (d.props names) x := by
  funext x
  by_cases hname : x.tag = "name"
  · cases hx : x.isPropertyChild names <;> simp [keepsChild, hname, hx]
  · rw [keepsChild, contains_inheritFrom hc hd hname, keepsChild, keepsChild,
      beq_false_of_ne hname]
    cases x.isPropertyChild names <;> cases (c.props names).contains x.tag <;> rfl

/-- **Chains of bases may be merged from either end.** -/
theorem inheritFrom_assoc (base : Element) :
    c.inheritFrom (d.inheritFrom base names) names =
      (c.inheritFrom d names).inheritFrom base names := by
  have hkept : (fun a => keepsAttr (c.props names) a && a.1 != "reuse") =
      fun a => a.1 != "reuse" && keepsAttr (c.props names) a :=
    funext fun a => Bool.and_comm _ _
  have hattrs : (c.inheritFrom (d.inheritFrom base names) names).attrs =
      ((c.inheritFrom d names).inheritFrom base names).attrs := by
    rw [attrs_inheritFrom c, attrs_inheritFrom d, attrs_inheritFrom _ base, attrs_inheritFrom c d,
      keepsAttr_inheritFrom hc hd]
    simp only [List.filter_append, List.filter_filter, List.append_assoc, Bool.and_self, hkept]
  have hchildren : (c.inheritFrom (d.inheritFrom base names) names).children =
      ((c.inheritFrom d names).inheritFrom base names).children := by
    rw [children_inheritFrom c, children_inheritFrom d, children_inheritFrom _ base,
      children_inheritFrom c d, keepsChild_inheritFrom hc hd]
    simp only [List.filter_append, List.filter_filter, List.append_assoc]
  exact (Element.mk.injEq ..).mpr ⟨rfl, hattrs, hchildren, rfl, rfl⟩

end

/-- **An element over a base.** Each property other than the name has the values that the element
gives itself, in an attribute or a child, or else those of the base in their order; the name is that
of the element. The children that are no properties are those of the base before those of the
element. Where no base is named, an element over one that is laid over a base is the same as the
first two laid over the base together. -/
theorem inheritance_overrides_and_chains (d base : Element) (names : List String) :
    (∀ key, key ≠ "name" → key ≠ "reuse" → ((d.inheritFrom base names).props names).all key =
      if (d.props names).all key = [] then (base.props names).all key
      else (d.props names).all key) ∧
    ((d.inheritFrom base names).props names).all "name" = (d.props names).all "name" ∧
    ((d.inheritFrom base names).children.filter fun c => !c.isPropertyChild names) =
      (base.children.filter fun c => !c.isPropertyChild names) ++
        (d.children.filter fun c => !c.isPropertyChild names) ∧
    ∀ c : Element, c.NamesNoBase names → d.NamesNoBase names →
      c.inheritFrom (d.inheritFrom base names) names =
        (c.inheritFrom d names).inheritFrom base names := by
  refine ⟨fun key hname hreuse => ?_, ?_, filter_not_isPropertyChild_inheritFrom,
    fun c hc hd => inheritFrom_assoc hc hd base⟩
  · rw [all_inheritFrom hreuse]
    by_cases hown : (d.props names).all key = []
    · have hnone : ¬ (key = "name" ∨ (d.props names).contains key = true) := by
        rw [Props.contains_iff_all]
        exact not_or.mpr ⟨hname, not_not.mpr hown⟩
      rw [if_neg hnone, if_pos hown]
    · rw [if_pos (Or.inr (Props.contains_iff_all.mpr hown)), if_neg hown]
  · rw [all_inheritFrom (by decide), if_pos (Or.inl rfl)]

/-- The names of properties of the integers below. -/
def chainNames : List String := ["name", "description", "type", "validRange", "reuse"]

/-- An integer that others are laid over: a property is repeated, and one is a child. -/
def chainBase : Element :=
  ⟨"int", [("name", "A"), ("type", "uint8"), ("validRange", "[0,1]"), ("validRange", "[4,5]")],
    [⟨"description", [], [], "the first", 2⟩,
      ⟨"special", [("name", "x"), ("val", "0")], [], "", 3⟩], "", 1⟩

/-- An integer with properties of its own: one replaces a child, and a child the repeated one. -/
def chainMiddle : Element :=
  ⟨"int", [("name", "B"), ("description", "the second")],
    [⟨"validRange", [("value", "[7,9]")], [], "", 5⟩,
      ⟨"special", [("name", "y"), ("val", "7")], [], "", 6⟩], "", 4⟩

/-- An integer that has a type only. -/
def chainLast : Element := ⟨"int", [("name", "C")], [⟨"type", [], [], "uint16", 8⟩], "", 7⟩

theorem inheritance_of_chainLast :
    ((chainMiddle.inheritFrom chainBase chainNames).props chainNames).all "validRange" =
      ["[7,9]"] ∧
    ((chainLast.inheritFrom chainBase chainNames).props chainNames).all "validRange" =
      ["[0,1]", "[4,5]"] ∧
    chainLast.NamesNoBase chainNames ∧ chainMiddle.NamesNoBase chainNames ∧
    chainLast.inheritFrom (chainMiddle.inheritFrom chainBase chainNames) chainNames =
      (chainLast.inheritFrom chainMiddle chainNames).inheritFrom chainBase chainNames := by
  have hlast : chainLast.NamesNoBase chainNames := by unfold NamesNoBase; decide
  have hmiddle : chainMiddle.NamesNoBase chainNames := by unfold NamesNoBase; decide
  obtain ⟨hown, -, -, hchain⟩ := inheritance_overrides_and_chains chainMiddle chainBase chainNames
  obtain ⟨hbase, -⟩ := inheritance_overrides_and_chains chainLast chainBase chainNames
  refine ⟨?_, ?_, hlast, hmiddle, hchain chainLast hlast hmiddle⟩
  · rw [hown "validRange" (by decide) (by decide)]
    decide
  · rw [hbase "validRange" (by decide) (by decide)]
    decide

end WireSchema.Markup.Element
