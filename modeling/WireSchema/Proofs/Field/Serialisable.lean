import WireSchema.Proofs.Field.Numbers
import WireSchema.Proofs.Field.Reading

/-! # Warnings about values that the wire cannot carry

When an integer is read, its special values, its default value if it is declared and both bounds of
its valid ranges are checked one by one, and there is one warning for each that the wire cannot
carry (`findings_readInt`). These are the numbers that are written in the declaration and, where
only one bound of a range is written or none, the bounds that the type supplies
(`exists_mem_checkedValues_iff`). -/

namespace WireSchema

open Markup

/-! ### The checks -/

/-- The warning that the wire cannot carry a value of the integer. -/
def IntField.unserialisable (core : FieldCore) (f : IntField) (what : String) (v : Int) : Finding :=
  ⟨core.line, .warning (.notSerialisable core.name what v f.wireRange.lo f.wireRange.hi)⟩

/-- The warning about the value, if there has to be one. -/
def IntField.unserialisable? (core : FieldCore) (f : IntField) (x : String × Int) :
    Option Finding :=
  if f.wireRange.contains x.2 then none else some (f.unserialisable core x.1 x.2)

/-- The numbers that are checked, with what they are. A default value that is not declared is not
one of them. -/
def IntField.checkedValues (props : Props) (f : IntField) : List (String × Int) :=
  f.specials.map (fun s => ("special value", s.value)) ++
    ((if props.single "defaultValue" = .ok none then [] else [("default value", f.defaultValue)]) ++
      f.validRanges.flatMap fun r => [("valid range bound", r.lo), ("valid range bound", r.hi)])

section
variable {ctx : Context} {core : FieldCore} {pos : Position} {props : Props} {e : Element}

theorem findings_checkValue {f : IntField} {what : String} {v : Int} {type : Interval}
    {fs : List Finding} {u : Unit} (h : (checkValue core what v type f.wireRange).Leaves fs u) :
    fs = [(what, v)].filterMap (f.unserialisable? core) := by
  obtain ⟨hresult, rfl⟩ := h
  unfold checkValue at hresult ⊢
  by_cases htype : type.contains v = true
  · by_cases hwire : f.wireRange.contains v = true
    · simp [htype, hwire, IntField.unserialisable?]
    · simp [htype, hwire, IntField.unserialisable?, IntField.unserialisable, Pass.warn]
  · simp [htype, Pass.fail] at hresult

theorem findings_checkRange {f : IntField} {type r : Interval} {fs : List Finding} {u : Unit}
    (h : (checkRange core type f.wireRange r).Leaves fs u) :
    fs = [("valid range bound", r.lo), ("valid range bound", r.hi)].filterMap
      (f.unserialisable? core) := by
  obtain ⟨-, h⟩ := Pass.leaves_require_bind.mp h
  obtain ⟨_, fs₁, fs₂, hlo, hhi, rfl⟩ := Pass.leaves_bind.mp h
  rw [findings_checkValue hlo, findings_checkValue hhi, ← List.filterMap_append]
  rfl

theorem findings_checkRanges {f : IntField} {type : Interval} {rs : List Interval}
    {fs : List Finding} {u : Unit}
    (h : (rs.forM (checkRange core type f.wireRange)).Leaves fs u) :
    fs = (rs.flatMap fun r =>
      [("valid range bound", r.lo), ("valid range bound", r.hi)]).filterMap
        (f.unserialisable? core) := by
  rw [List.filterMap_flatMap]
  exact Pass.findings_of_leaves_forM (fun _ _ => findings_checkRange) h

theorem findings_checkSpecials {f : IntField} {type : Interval} {specials : List (Special Int)}
    {fs : List Finding} {u : Unit}
    (h : (specials.forM fun s =>
      checkValue core "special value" s.value type f.wireRange).Leaves fs u) :
    fs = (specials.map fun s => ("special value", s.value)).filterMap
      (f.unserialisable? core) := by
  rw [List.map_eq_flatMap, List.filterMap_flatMap]
  exact Pass.findings_of_leaves_forM (fun _ _ => findings_checkValue) h

/-- What is left after the default value, by the checks of the valid ranges. -/
theorem findings_readRanges {field f : IntField} {v : Int} {fs : List Finding}
    (h : (do
      let ranges ← liftM (readRanges props field.valueOf? field.typeRange.lo field.typeRange.hi)
      let ranges := ranges.map fun r => (⟨r.1, r.2⟩ : Interval)
      ranges.forM (checkRange core field.typeRange field.wireRange)
      return { field with defaultValue := v, validRanges := ranges } : Pass IntField).Leaves fs f) :
    ∃ rs, f = { field with defaultValue := v, validRanges := rs } ∧
      fs = (rs.flatMap fun r =>
        [("valid range bound", r.lo), ("valid range bound", r.hi)]).filterMap
          (field.unserialisable? core) := by
  obtain ⟨rs, -, h⟩ := Pass.leaves_liftM_bind.mp h
  obtain ⟨_, fs₁, fs₂, hcheck, h, hfs⟩ := Pass.leaves_bind.mp h
  obtain ⟨hf, hfs₂⟩ := Pass.leaves_pure.mp h
  refine ⟨_, hf.symm, ?_⟩
  rw [hfs, hfs₂, List.append_nil]
  exact findings_checkRanges hcheck

/-- **What is found when an integer is read**: after what is said of its bits, one warning for each
value that is checked and that the wire cannot carry, in order. -/
theorem findings_readInt {f : IntField} {fs : List Finding}
    (h : (readInt ctx core pos props e).Leaves fs f) :
    fs = (readBitLength props core pos f.type.isVariable (f.length * 8)).findings ++
      (f.checkedValues props).filterMap (f.unserialisable? core) := by
  unfold readInt at h
  obtain ⟨rawType, -, h⟩ := Pass.leaves_liftM_bind.mp h
  split at h
  · obtain ⟨length, -, h⟩ := Pass.leaves_liftM_bind.mp h
    obtain ⟨bitLength, fs₁, fs₂, ⟨-, hbits⟩, h, hfs⟩ := Pass.leaves_bind.mp h
    obtain ⟨serOffset, -, h⟩ := Pass.leaves_liftM_bind.mp h
    obtain ⟨scaling, -, h⟩ := Pass.leaves_liftM_bind.mp h
    obtain ⟨decimals, -, h⟩ := Pass.leaves_liftM_bind.mp h
    obtain ⟨endian, -, h⟩ := Pass.leaves_liftM_bind.mp h
    obtain ⟨units, -, h⟩ := Pass.leaves_liftM_bind.mp h
    obtain ⟨specials, -, h⟩ := Pass.leaves_liftM_bind.mp h
    dsimp only at h
    split at h
    · rename_i wire hwire
      obtain ⟨_, fs₃, fs₄, hspecials, h, hfs₂⟩ := Pass.leaves_bind.mp h
      obtain ⟨given, hgiven, h⟩ := Pass.leaves_liftM_bind.mp h
      -- the range on the wire does not depend on what is read from here on
      obtain rfl := IntField.wireRange_eq hwire
      have hfs₃ := findings_checkSpecials hspecials
      cases given with
      | none =>
        obtain ⟨v, fs₅, fs₆, hv, h, hfs₄⟩ := Pass.leaves_bind.mp h
        obtain ⟨rfl, rfl⟩ := Pass.leaves_pure.mp hv
        obtain ⟨rs, rfl, hfs₆⟩ := findings_readRanges h
        rw [IntField.checkedValues, if_pos (parsed_eq_none.mp hgiven), List.filterMap_append,
          List.nil_append, hfs, hfs₂, hfs₄, hfs₆, hfs₃, hbits]
        rfl
      | some v =>
        obtain ⟨_, fs₅, fs₆, hcheck, h, hfs₄⟩ := Pass.leaves_bind.mp h
        obtain ⟨_, fs₇, fs₈, hv, h, hfs₆⟩ := Pass.leaves_bind.mp h
        obtain ⟨rfl, rfl⟩ := Pass.leaves_pure.mp hv
        obtain ⟨rs, rfl, hfs₈⟩ := findings_readRanges h
        obtain ⟨s, hs, -⟩ := parsed_eq_some.mp hgiven
        have hdeclared : ¬ props.single "defaultValue" = .ok none := by simp [hs]
        rw [IntField.checkedValues, if_neg hdeclared, List.filterMap_append,
          List.filterMap_append, hfs, hfs₂, hfs₄, hfs₆, hfs₈, hfs₃, hbits,
          findings_checkValue hcheck]
        rfl
    · exact absurd h Pass.not_leaves_fail
  · exact absurd h Pass.not_leaves_fail

/-! ### Written and supplied values -/

/-- A bound of a valid range that is not written but supplied by the type: the greatest value where
only the least one is written, the least one where only the greatest is, and both for the full
range. -/
inductive IntField.Supplies (props : Props) (f : IntField) : Int → Prop
  | greatest {s : String} (hs : s ∈ props.all "validMin") : Supplies props f f.typeRange.hi
  | least {s : String} (hs : s ∈ props.all "validMax") : Supplies props f f.typeRange.lo
  | full {v : Int} (hfull : readFlag props "validFullRange" = .ok true)
    (hv : v = f.typeRange.lo ∨ v = f.typeRange.hi) : Supplies props f v

/-- Where the valid ranges come from. -/
theorem source_of_readRanges {α : Type} {valueOf? : String → Option α} {least greatest : α}
    {rs : List (α × α)} (h : readRanges props valueOf? least greatest = .ok rs) :
    (∀ a b, (a, b) ∈ rs →
      (∃ s ∈ props.all "validRange", ∃ lo hi, Literal.range? s = some (lo, hi) ∧
        valueOf? lo = some a ∧ valueOf? hi = some b) ∨
      (∃ s ∈ props.all "validValue", valueOf? s = some a ∧ b = a) ∨
      (∃ s ∈ props.all "validMin", valueOf? s = some a ∧ b = greatest) ∨
      (∃ s ∈ props.all "validMax", valueOf? s = some b ∧ a = least) ∨
      (readFlag props "validFullRange" = .ok true ∧ a = least ∧ b = greatest)) ∧
    (readFlag props "validFullRange" = .ok true → (least, greatest) ∈ rs) := by
  unfold readRanges at h
  extract_lets value at h
  have hvalue {key s : String} {v : α} (h : value key s = .ok v) : valueOf? s = some v := by
    unfold value at h
    split at h
    · rename_i w hw
      rw [hw, Except.ok.inj h]
    · cases h
  obtain ⟨ranges, hranges, h⟩ := bind_eq_ok.mp h
  obtain ⟨values, hvalues, h⟩ := bind_eq_ok.mp h
  obtain ⟨mins, hmins, h⟩ := bind_eq_ok.mp h
  obtain ⟨maxs, hmaxs, h⟩ := bind_eq_ok.mp h
  obtain ⟨full, hfull, h⟩ := bind_eq_ok.mp h
  obtain rfl := Except.ok.inj h
  refine ⟨fun a b hr => ?_, fun htrue => ?_⟩
  · simp only [List.mem_append] at hr
    rcases hr with (((hr | hr) | hr) | hr) | hr
    · obtain ⟨s, hs, hread⟩ := exists_of_mem_mapM hranges _ hr
      split at hread
      · rename_i lo hi hbounds
        obtain ⟨_, ha, hread⟩ := bind_eq_ok.mp hread
        obtain ⟨_, hb, hread⟩ := bind_eq_ok.mp hread
        obtain ⟨rfl, rfl⟩ := Prod.mk.inj (Except.ok.inj hread)
        exact Or.inl ⟨s, hs, lo, hi, hbounds, hvalue ha, hvalue hb⟩
      · cases hread
    · obtain ⟨s, hs, hread⟩ := exists_of_mem_mapM hvalues _ hr
      obtain ⟨v, hv, hread⟩ := bind_eq_ok.mp hread
      obtain ⟨rfl, rfl⟩ := Prod.mk.inj (Except.ok.inj hread)
      exact Or.inr (Or.inl ⟨s, hs, hvalue hv, rfl⟩)
    · obtain ⟨s, hs, hread⟩ := exists_of_mem_mapM hmins _ hr
      obtain ⟨v, hv, hread⟩ := bind_eq_ok.mp hread
      obtain ⟨rfl, rfl⟩ := Prod.mk.inj (Except.ok.inj hread)
      exact Or.inr (Or.inr (Or.inl ⟨s, hs, hvalue hv, rfl⟩))
    · obtain ⟨s, hs, hread⟩ := exists_of_mem_mapM hmaxs _ hr
      obtain ⟨v, hv, hread⟩ := bind_eq_ok.mp hread
      obtain ⟨rfl, rfl⟩ := Prod.mk.inj (Except.ok.inj hread)
      exact Or.inr (Or.inr (Or.inr (Or.inl ⟨s, hs, hvalue hv, rfl⟩)))
    · cases full with
      | false => exact absurd hr List.not_mem_nil
      | true =>
        obtain ⟨rfl, rfl⟩ := Prod.mk.inj (List.mem_singleton.mp hr)
        exact Or.inr (Or.inr (Or.inr (Or.inr ⟨hfull, rfl, rfl⟩)))
  · obtain rfl : full = true := Except.ok.inj (hfull.symm.trans htrue)
    simp

variable {quiet : Prop} {f : IntField} {what : String} {v : Int} {rs : List (Int × Int)}

theorem mem_checkedValues_of_range {r : Interval} (hr : r ∈ f.validRanges)
    (hv : v = r.lo ∨ v = r.hi) : ("valid range bound", v) ∈ f.checkedValues props := by
  refine List.mem_append_right _ (List.mem_append_right _ (List.mem_flatMap.mpr ⟨r, hr, ?_⟩))
  rcases hv with rfl | rfl <;> simp

theorem mem_checkedValues (h : (what, v) ∈ f.checkedValues props) :
    (∃ x ∈ f.specials, x.value = v) ∨
      (props.single "defaultValue" ≠ .ok none ∧ f.defaultValue = v) ∨
      ∃ r ∈ f.validRanges, v = r.lo ∨ v = r.hi := by
  simp only [IntField.checkedValues, List.mem_append] at h
  rcases h with h | h | h
  · obtain ⟨x, hx, heq⟩ := List.mem_map.mp h
    exact Or.inl ⟨x, hx, (Prod.mk.inj heq).2⟩
  · by_cases hnone : props.single "defaultValue" = .ok none
    · rw [if_pos hnone] at h
      exact absurd h List.not_mem_nil
    · rw [if_neg hnone, List.mem_singleton] at h
      exact Or.inr (Or.inl ⟨hnone, (Prod.mk.inj h).2.symm⟩)
  · obtain ⟨r, hr, h⟩ := List.mem_flatMap.mp h
    simp only [List.mem_cons, Prod.mk.injEq, List.not_mem_nil, or_false] at h
    exact Or.inr (Or.inr ⟨r, hr, h.imp And.right And.right⟩)

theorem writes_or_supplies_of_mem {a b : Int}
    (hrs : readRanges props f.valueOf? f.typeRange.lo f.typeRange.hi = .ok rs) (hab : (a, b) ∈ rs)
    (hv : v = a ∨ v = b) : f.Writes props e v ∨ f.Supplies props v := by
  rcases (source_of_readRanges hrs).1 a b hab with ⟨s, hs, lo, hi, hread, ha, hb⟩ |
    ⟨s, hs, ha, rfl⟩ | ⟨s, hs, ha, rfl⟩ | ⟨s, hs, hb, rfl⟩ | ⟨hflag, rfl, rfl⟩
  · rcases hv with rfl | rfl
    · exact Or.inl (.range hs hread (Or.inl ha))
    · exact Or.inl (.range hs hread (Or.inr hb))
  · obtain rfl : v = b := hv.elim id id
    exact Or.inl (.bound (by decide : "validValue" ∈ _) hs ha)
  · rcases hv with rfl | rfl
    · exact Or.inl (.bound (by decide : "validMin" ∈ _) hs ha)
    · exact Or.inr (.greatest hs)
  · rcases hv with rfl | rfl
    · exact Or.inr (.least hs)
    · exact Or.inl (.bound (by decide : "validMax" ∈ _) hs hb)
  · exact Or.inr (.full hflag hv)

/-- Both bounds of each range that is read are checked. -/
theorem IntField.Checked.mem_of_pair (h : IntField.Checked ctx core pos props e quiet f) :
    ∃ rs, readRanges props f.valueOf? f.typeRange.lo f.typeRange.hi = .ok rs ∧
      ∀ {a b v : Int}, (a, b) ∈ rs → v = a ∨ v = b → ∃ what, (what, v) ∈ f.checkedValues props := by
  obtain ⟨rs, hrs, hranges⟩ := h.ranges
  refine ⟨rs, hrs, fun {a b v} hmem hv => ?_⟩
  have hrange : (⟨a, b⟩ : Interval) ∈ f.validRanges := hranges ▸ List.mem_map_of_mem hmem
  exact ⟨_, mem_checkedValues_of_range hrange hv⟩

theorem IntField.Checked.mem_of_writes (h : IntField.Checked ctx core pos props e quiet f)
    (hv : f.Writes props e v) : ∃ what, (what, v) ∈ f.checkedValues props := by
  obtain ⟨rs, hrs, hbound⟩ := h.mem_of_pair
  obtain ⟨hrange, hvalue, hmin, hmax⟩ := mem_of_readRanges hrs
  cases hv with
  | @default s v hs hv =>
    rcases h.default with ⟨hnone, -⟩ | ⟨t, ht, hread, -⟩
    · rw [hs] at hnone
      cases hnone
    · obtain rfl : s = t := Option.some.inj (Except.ok.inj (hs.symm.trans ht))
      obtain rfl := Option.some.inj (hread.symm.trans hv)
      refine ⟨"default value", List.mem_append_right _ (List.mem_append_left _ ?_)⟩
      rw [if_neg (by simp [hs])]
      exact List.mem_singleton_self _
  | @special c v hc hv =>
    obtain ⟨-, hall⟩ := exists_mem_foldlM h.specials
    obtain ⟨x, hx, known, hread⟩ := hall c hc
    rw [hv.unique (readSpecial_ok ctx core c hread).1]
    exact ⟨_, List.mem_append_left _ (List.mem_map_of_mem hx)⟩
  | @range s lo hi v hs hbounds hv =>
    obtain ⟨lo', hi', a, b, hbounds', ha, hb, hmem⟩ := hrange s hs
    obtain ⟨rfl, rfl⟩ := Prod.mk.inj (Option.some.inj (hbounds.symm.trans hbounds'))
    exact hbound hmem (hv.imp (fun hv => Option.some.inj (hv.symm.trans ha))
      fun hv => Option.some.inj (hv.symm.trans hb))
  | @bound key s v hkey hs hv =>
    simp only [List.mem_cons, List.not_mem_nil, or_false] at hkey
    rcases hkey with rfl | rfl | rfl
    · obtain ⟨w, hw, hmem⟩ := hvalue s hs
      exact hbound hmem (Or.inl (Option.some.inj (hv.symm.trans hw)))
    · obtain ⟨w, hw, hmem⟩ := hmin s hs
      exact hbound hmem (Or.inl (Option.some.inj (hv.symm.trans hw)))
    · obtain ⟨w, hw, hmem⟩ := hmax s hs
      exact hbound hmem (Or.inr (Option.some.inj (hv.symm.trans hw)))

theorem IntField.Checked.mem_of_supplies (h : IntField.Checked ctx core pos props e quiet f)
    (hv : f.Supplies props v) : ∃ what, (what, v) ∈ f.checkedValues props := by
  obtain ⟨rs, hrs, hbound⟩ := h.mem_of_pair
  obtain ⟨-, -, hmin, hmax⟩ := mem_of_readRanges hrs
  cases hv with
  | greatest hs =>
    obtain ⟨w, -, hmem⟩ := hmin _ hs
    exact hbound hmem (Or.inr rfl)
  | least hs =>
    obtain ⟨w, -, hmem⟩ := hmax _ hs
    exact hbound hmem (Or.inl rfl)
  | full hflag hv => exact hbound ((source_of_readRanges hrs).2 hflag) hv

/-- **The values that are checked** are those that are written and those that the type supplies. -/
theorem exists_mem_checkedValues_iff (h : IntField.Checked ctx core pos props e quiet f) :
    (∃ what, (what, v) ∈ f.checkedValues props) ↔ f.Writes props e v ∨ f.Supplies props v := by
  constructor
  · rintro ⟨what, hmem⟩
    rcases mem_checkedValues hmem with ⟨x, hx, rfl⟩ | ⟨hgiven, rfl⟩ | ⟨r, hr, hv⟩
    · rcases exists_of_mem_foldlM h.specials x hx with hx | ⟨c, hc, known, hread⟩
      · exact absurd hx List.not_mem_nil
      · exact Or.inl (.special hc (readSpecial_ok ctx core c hread).1)
    · rcases h.default with ⟨hnone, -⟩ | ⟨s, hs, hread, -⟩
      · exact absurd hnone hgiven
      · exact Or.inl (.default hs hread)
    · obtain ⟨rs, hrs, hranges⟩ := h.ranges
      rw [hranges] at hr
      obtain ⟨⟨a, b⟩, hab, rfl⟩ := List.mem_map.mp hr
      exact writes_or_supplies_of_mem hrs hab hv
  · exact fun hv => hv.elim h.mem_of_writes h.mem_of_supplies

end

end WireSchema
