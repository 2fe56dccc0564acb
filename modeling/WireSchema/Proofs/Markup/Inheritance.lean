import Mathlib.Data.List.Basic
import WireSchema.Markup.Props

/-! # What an element inherits

An element that is laid over a base has each of its own properties, its own name or none, and all
other properties of the base (`all_inheritFrom`). The children that are no properties of its own are
those of the base and then its own (`filter_children_inheritFrom`). -/

namespace WireSchema.Markup

theorem Props.single_eq (p : Props) (key : String) :
    p.single key = if (p.all key).length > 1 then .error (.duplicateProperty key)
      else .ok (p.all key).head? := by
  rw [single, count, List.countP_eq_length_filter, get?, all, List.length_map, List.head?_map,
    List.head?_filter]

theorem Props.single_eq_ok_none_iff {p : Props} {key : String} :
    p.single key = .ok none ↔ p.all key = [] := by
  rw [single_eq]
  split_ifs with hlong
  · refine ⟨nofun, fun h => ?_⟩
    rw [h] at hlong
    exact absurd hlong (Nat.not_lt_zero _)
  · rw [Except.ok.injEq, List.head?_eq_none_iff]

theorem Props.contains_iff_all {p : Props} {key : String} :
    p.contains key = true ↔ p.all key ≠ [] := by
  simp [contains, all, List.filter_eq_nil_iff]

theorem Props.contains_of_single {p : Props} {key : String} {given : Option String}
    (h : p.single key = .ok given) : p.contains key = given.isSome := by
  unfold single at h
  split_ifs at h
  obtain rfl : p.get? key = given := Except.ok.inj h
  rw [get?, Option.isSome_map, List.isSome_find?]
  rfl

namespace Element

variable {e base : Element} {names : List String} {key : String}

/-- The attributes with the name, and then the children that are properties with the name. -/
theorem all_props (e : Element) (names : List String) (key : String) :
    (e.props names).all key = (e.attrs.filter (·.1 == key)).map (·.2) ++
      (e.children.filter fun c => names.contains c.tag && c.tag == key).filterMap
        propertyValue? := by
  have hchildren : ((e.children.filter fun c => names.contains c.tag).filterMap fun c =>
      c.propertyValue?.map fun v => (c.tag, v)).filter (·.1 == key) =
      (e.children.filter fun c => names.contains c.tag && c.tag == key).filterMap fun c =>
        c.propertyValue?.map fun v => (c.tag, v) := by
    rw [List.filter_filterMap, List.filterMap_filter, List.filterMap_filter]
    refine List.filterMap_congr fun c _ => ?_
    cases names.contains c.tag <;> cases c.propertyValue? <;> cases hkey : c.tag == key <;> simp_all
  unfold props Props.all
  rw [List.filter_append, List.map_append, hchildren, List.map_filterMap]
  congr 2
  funext c
  cases c.propertyValue? <;> rfl

theorem all_props_congr {names' : List String} (h : names.contains key = names'.contains key) :
    (e.props names).all key = (e.props names').all key := by
  rw [all_props, all_props]
  refine congrArg (_ ++ List.filterMap propertyValue? ·) (List.filter_congr fun c _ => ?_)
  cases hkey : c.tag == key with
  | false => rw [Bool.and_false, Bool.and_false]
  | true => rw [beq_iff_eq.mp hkey, h]

theorem filter_attrs_inheritFrom (hreuse : key ≠ "reuse") :
    (e.inheritFrom base names).attrs.filter (·.1 == key) =
      (if key = "name" ∨ (e.props names).contains key = true then []
        else base.attrs.filter (·.1 == key)) ++ e.attrs.filter (·.1 == key) := by
  unfold inheritFrom
  rw [List.filter_append, List.filter_filter, List.filter_filter]
  congr 1
  · split_ifs with hown
    · rw [List.filter_eq_nil_iff]
      rintro a - ha
      simp only [Bool.and_eq_true, beq_iff_eq, bne_iff_ne, Bool.not_eq_true'] at ha
      obtain ⟨rfl, ⟨hname, -⟩, hkept⟩ := ha
      exact hown.elim hname fun h => Bool.false_ne_true (hkept.symm.trans h)
    · refine List.filter_congr fun a _ => ?_
      rw [not_or, Bool.not_eq_true] at hown
      cases ha : a.1 == key with
      | false => rfl
      | true => simp [beq_iff_eq.mp ha, hown, hreuse]
  · refine List.filter_congr fun a _ => ?_
    cases ha : a.1 == key with
    | false => rfl
    | true => simp [beq_iff_eq.mp ha, hreuse]

/-- A child of the base is left out only if it is a property. -/
theorem filterMap_children_inheritFrom :
    ((e.inheritFrom base names).children.filter fun c =>
        names.contains c.tag && c.tag == key).filterMap propertyValue? =
      (if key = "name" ∨ (e.props names).contains key = true then []
        else (base.children.filter fun c => names.contains c.tag && c.tag == key).filterMap
          propertyValue?) ++
        (e.children.filter fun c => names.contains c.tag && c.tag == key).filterMap
          propertyValue? := by
  unfold inheritFrom
  rw [List.filter_append, List.filterMap_append, List.filter_filter]
  congr 1
  split_ifs with hown
  · refine List.filterMap_eq_nil_iff.mpr fun c hc => ?_
    obtain ⟨-, hc⟩ := List.mem_filter.mp hc
    simp only [Bool.and_eq_true, beq_iff_eq, Bool.not_eq_true', isPropertyChild] at hc
    obtain ⟨⟨hnames, rfl⟩, hkept⟩ := hc
    -- a child that is kept says nothing, or its name is not one of those that are left out
    rw [hnames, Bool.true_and, Bool.and_eq_false_iff] at hkept
    rcases hkept with hnone | hkept
    · rwa [← Bool.not_eq_true, Option.not_isSome_iff_eq_none] at hnone
    · rw [Bool.or_eq_false_iff, beq_eq_false_iff_ne] at hkept
      exact absurd hown (not_or.mpr ⟨hkept.1, Bool.eq_false_iff.mp hkept.2⟩)
  · refine congrArg _ (List.filter_congr fun c _ => ?_)
    rw [not_or, Bool.not_eq_true] at hown
    cases hc : c.tag == key with
    | false => simp
    | true => simp [beq_iff_eq.mp hc, hown]

/-- **The element has its own properties, its own name or none, and all others of the base.** -/
theorem all_inheritFrom (hreuse : key ≠ "reuse") :
    ((e.inheritFrom base names).props names).all key =
      if key = "name" ∨ (e.props names).contains key = true then (e.props names).all key
      else (base.props names).all key := by
  rw [all_props, filter_attrs_inheritFrom hreuse, filterMap_children_inheritFrom]
  split_ifs with hown
  · rw [List.nil_append, List.nil_append, all_props]
  · have hnone : (e.props names).all key = [] := by
      by_contra h
      exact hown (Or.inr (Props.contains_iff_all.mpr h))
    rw [all_props, List.append_eq_nil_iff, List.map_eq_nil_iff] at hnone
    rw [hnone.1, hnone.2, List.append_nil, List.append_nil, all_props]

theorem single_inheritFrom (hreuse : key ≠ "reuse") :
    ((e.inheritFrom base names).props names).single key =
      if key = "name" ∨ (e.props names).contains key = true then (e.props names).single key
      else (base.props names).single key := by
  rw [Props.single_eq, all_inheritFrom hreuse]
  by_cases hown : key = "name" ∨ (e.props names).contains key = true
  · rw [if_pos hown, if_pos hown, Props.single_eq]
  · rw [if_neg hown, if_neg hown, Props.single_eq]

theorem filter_children_inheritFrom {accept : String → Bool}
    (h : ∀ tag, accept tag = true → names.contains tag = true →
      tag ≠ "name" ∧ (e.props names).contains tag = false) :
    (e.inheritFrom base names).children.filter (fun c => accept c.tag) =
      base.children.filter (fun c => accept c.tag) ++ e.children.filter fun c => accept c.tag := by
  unfold inheritFrom
  rw [List.filter_append, List.filter_filter]
  congr 1
  refine List.filter_congr fun c _ => ?_
  cases haccept : accept c.tag with
  | false => rfl
  | true =>
    rw [Bool.true_and, isPropertyChild]
    cases hnames : names.contains c.tag with
    | false => rfl
    | true =>
      obtain ⟨hname, hown⟩ := h c.tag haccept hnames
      rw [hown, beq_false_of_ne hname]
      simp

theorem size_le_inheritFrom : e.size ≤ (e.inheritFrom base names).size := by
  have happend (xs ys : List Element) : sizeAll (xs ++ ys) = sizeAll xs + sizeAll ys := by
    induction xs with
    | nil => simp [sizeAll]
    | cons x xs ih =>
      rw [List.cons_append, sizeAll, sizeAll, ih]
      omega
  obtain ⟨tag, attrs, children, text, line⟩ := e
  rw [inheritFrom, size, size, happend]
  exact Nat.succ_le_succ (Nat.le_add_left _ _)

end Element

end WireSchema.Markup
