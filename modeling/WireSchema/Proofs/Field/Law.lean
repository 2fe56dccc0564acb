import WireSchema.Proofs.Field.AlikeInside
import WireSchema.Proofs.Finding.Law

/-! # Readings of an element that are related

What relates single steps of passes, and related passes one after the other (`Pass.Law`), relates
two readings of an element as soon as it relates what their nested readers do inside of it
(`Pass.Law.related_readMerged`). Only the window of the element matters of what it is itself. -/

namespace WireSchema

open Markup

/-- What the nested readers do inside of an element with the window is related. -/
def NestedReader.RelatedInside (R : ∀ ⦃α : Type⦄, Pass α → Pass α → Prop)
    (nested nested' : NestedReader) (w : Window) (e : Element) : Prop :=
  ∀ pos c, pos.parent = w → pos.topLevel = false → e.Inner c → R (nested pos c) (nested' pos c)

namespace Pass.Law

variable {R : ∀ ⦃α : Type⦄, Pass α → Pass α → Prop} (law : Law R) {nested nested' : NestedReader}
  {ctx : Context} {core : FieldCore} {pos : Position} {props : Props} {e : Element}
include law

/-! ### Fields without fields inside -/

theorem related_readBitLength (varies : Bool) (limit : Nat) :
    R (readBitLength props core pos varies limit) (readBitLength props core pos varies limit) := by
  unfold readBitLength
  refine law.require_bind fun _ => law.liftM_bind fun s => ?_
  split
  · exact law.refl_pure _
  · split_ifs
    · exact law.bind (law.refl_warn _ _) fun _ => law.refl_pure _
    · split
      · exact law.refl_fail _
      · split_ifs
        · exact law.refl_fail _
        · exact law.refl_pure _

theorem related_checkValue (what : String) (v : Int) (type wire : Interval) :
    R (checkValue core what v type wire) (checkValue core what v type wire) := by
  unfold checkValue
  split_ifs
  · exact law.refl_fail _
  · exact law.refl_warn _ _
  · exact law.refl_pure _

theorem related_checkRange (type wire r : Interval) :
    R (checkRange core type wire r) (checkRange core type wire r) := by
  unfold checkRange
  refine law.require_bind fun _ => ?_
  exact law.bind (law.related_checkValue _ _ _ _) fun _ => law.related_checkValue _ _ _ _

theorem related_readInt : R (readInt ctx core pos props e) (readInt ctx core pos props e) := by
  unfold readInt
  refine law.liftM_bind fun rawType => ?_
  split
  · refine law.liftM_bind fun length => law.bind (law.related_readBitLength _ _) fun bitLength => ?_
    refine law.liftM_bind fun _ => law.liftM_bind fun _ => law.liftM_bind fun _ => ?_
    refine law.liftM_bind fun _ => law.liftM_bind fun _ => law.liftM_bind fun _ => ?_
    dsimp only
    split
    · refine law.bind (law.forM fun _ => law.related_checkValue _ _ _ _) fun _ => ?_
      refine law.liftM_bind fun v => ?_
      have hranges (rs : List Interval) (type wire : Interval) :
          R (rs.forM (checkRange core type wire)) (rs.forM (checkRange core type wire)) :=
        law.forM fun _ => law.related_checkRange _ _ _
      split
      · refine law.bind (law.refl_pure _) fun _ => law.liftM_bind fun _ => ?_
        exact law.bind (hranges _ _ _) fun _ => law.refl_pure _
      · refine law.bind (law.related_checkValue _ _ _ _) fun _ => ?_
        refine law.bind (law.refl_pure _) fun _ => law.liftM_bind fun _ => ?_
        exact law.bind (hranges _ _ _) fun _ => law.refl_pure _
    · exact law.refl_fail _
  · exact law.refl_fail _

theorem related_readEnumValue (f : EnumField) :
    R (readEnumValue ctx core f e) (readEnumValue ctx core f e) := by
  unfold readEnumValue
  refine law.liftM_bind fun name => law.liftM_bind fun _ => ?_
  refine law.require_bind fun _ => law.liftM_bind fun raw => ?_
  split
  · refine law.bind (law.related_checkValue _ _ _ _) fun _ => ?_
    dsimp only
    split_ifs
    · exact law.liftM_bind fun _ => law.liftM_bind fun _ => law.liftM_bind fun _ => law.refl_pure _
    · split
      · refine law.bind (law.refl_fail _) fun _ => law.liftM_bind fun _ => ?_
        exact law.liftM_bind fun _ => law.liftM_bind fun _ => law.refl_pure _
      · refine law.liftM_bind fun _ => law.liftM_bind fun _ => ?_
        exact law.liftM_bind fun _ => law.refl_pure _
  · exact law.refl_fail _

theorem related_readEnum : R (readEnum ctx core pos props e) (readEnum ctx core pos props e) := by
  unfold readEnum
  refine law.liftM_bind fun rawType => ?_
  split
  · refine law.liftM_bind fun _ => law.liftM_bind fun _ => ?_
    refine law.bind (law.related_readBitLength _ _) fun bitLength => ?_
    refine law.liftM_bind fun _ => law.liftM_bind fun _ => law.liftM_bind fun _ => ?_
    refine law.bind (law.foldlM fun f child => ?_) fun field => ?_
    · exact law.bind (law.related_readEnumValue f) fun _ => law.refl_pure _
    · refine law.require_bind fun _ => law.liftM_bind fun s => ?_
      split
      · exact law.refl_pure _
      · refine law.liftM_bind fun _ => ?_
        exact law.bind (law.related_checkValue _ _ _ _) fun _ => law.refl_pure _
  · exact law.refl_fail _

theorem related_readSet : R (readSet ctx core pos props e) (readSet ctx core pos props e) := by
  unfold readSet
  refine law.liftM_bind fun _ => law.liftM_bind fun _ => law.liftM_bind fun _ => ?_
  refine law.liftM_bind fun _ => law.bind (law.related_readBitLength _ _) fun bitLength => ?_
  refine law.liftM_bind fun _ => law.liftM_bind fun _ => ?_
  refine law.liftM_bind fun _ => law.liftM_bind fun _ => ?_
  exact law.foldlM fun f child => law.liftM_bind fun _ => law.refl_pure _

theorem related_readReference :
    R (readReference core pos props) (readReference core pos props) := by
  unfold readReference
  refine law.liftM_bind fun _ => law.liftM_bind fun _ => law.liftM_bind fun bits => ?_
  split
  · split_ifs
    · split
      · exact law.refl_pure _
      · exact law.refl_fail _
    · exact law.bind (law.refl_warn _ _) fun _ => law.refl_pure _
  · exact law.require_bind fun _ => law.refl_pure _

/-! ### Fields with fields inside -/

theorem related_readEach {es : List Element} (wrapper : Option String)
    (h : ∀ c ∈ es, isFieldTag c.tag = true → R (nested pos c) (nested' pos c)) :
    R (readEach nested pos wrapper es) (readEach nested' pos wrapper es) := by
  induction es with
  | nil => exact law.refl_pure _
  | cons c es ih =>
    have hrest := ih fun d hd => h d (List.mem_cons_of_mem _ hd)
    unfold readEach
    split_ifs with htag
    · refine law.bind (law.settled (h c List.mem_cons_self htag) c.line) fun field => ?_
      refine law.bind hrest fun r => ?_
      cases field <;> exact law.refl_pure _
    · split
      · exact law.bind (law.refl_warn _ _) fun _ => hrest
      · exact hrest

theorem related_readFields (wrapper owner : String) (htop : pos.topLevel = false)
    (h : nested.RelatedInside R nested' pos.parent e) :
    R (readFields nested pos wrapper owner e) (readFields nested' pos wrapper owner e) := by
  unfold readFields
  refine law.liftM_bindOk fun r hr => ?_
  refine law.bind (law.related_readEach _ fun c hc htag => h pos c rfl htop ?_) fun members => ?_
  · exact inner_of_fieldContainer hr c (List.mem_filter.mpr ⟨hc, htag⟩)
  · exact law.require_bind fun _ => law.refl_pure _

section
variable (h : nested.RelatedInside R nested' core.window e)
include h

theorem related_readBitfield :
    R (readBitfield ctx nested core props e) (readBitfield ctx nested' core props e) := by
  unfold readBitfield
  refine law.bind (law.related_readFields _ _ rfl h) fun members => ?_
  refine law.require_bind fun _ => ?_
  dsimp only
  split
  · refine law.bind (law.refl_fail _) fun _ => law.liftM_bind fun _ => ?_
    exact law.require_bind fun _ => law.liftM_bind fun _ => law.refl_pure _
  · refine law.liftM_bind fun _ => law.require_bind fun _ => ?_
    exact law.liftM_bind fun _ => law.refl_pure _

theorem related_readBundle : R (readBundle nested core e) (readBundle nested' core e) := by
  unfold readBundle
  refine law.bind (law.related_readFields _ _ rfl h) fun members => ?_
  exact law.require_bind fun _ => law.liftM_bind fun _ => law.refl_pure _

theorem related_readVariant :
    R (readVariant nested core props e) (readVariant nested' core props e) := by
  unfold readVariant
  refine law.bind (law.related_readFields _ _ rfl h) fun members => ?_
  refine law.liftM_bind fun s => ?_
  dsimp only
  split
  · exact law.bind (law.refl_pure _) fun _ => law.liftM_bind fun _ => law.refl_pure _
  · exact law.liftM_bind fun _ => law.liftM_bind fun _ => law.refl_pure _

theorem related_readPrefix (key : String) :
    R (readPrefix nested core props e key) (readPrefix nested' core props e key) := by
  unfold readPrefix
  refine law.liftM_bind fun named => ?_
  split
  · exact law.refl_fail _
  · exact law.refl_pure _
  · exact law.refl_fail _
  · exact law.liftM_bind fun _ => law.refl_pure _
  · rename_i w hw
    split
    · rename_i c hc
      have hmemw := hw ▸ List.mem_singleton_self w
      have hmemc : c ∈ fieldChildren w := hc ▸ List.mem_singleton_self c
      obtain ⟨hmemc, htag⟩ := List.mem_filter.mp hmemc
      have hinner : e.Inner c :=
        ⟨htag, Or.inr ⟨w, (List.mem_filter.mp (List.mem_filter.mp hmemw).1).1, hmemc⟩⟩
      exact law.bind (h _ c rfl rfl hinner) fun _ => law.refl_pure _
    · exact law.refl_fail _

theorem related_readListElement :
    R (readListElement nested core props e) (readListElement nested' core props e) := by
  unfold readListElement
  refine law.liftM_bind fun named => ?_
  split
  · exact law.liftM_bind fun _ => law.refl_pure _
  · rename_i c hc
    have hinner : e.Inner c := inner_of_mem_fieldsInside (hc ▸ List.mem_singleton_self c)
    exact law.bind (h _ c rfl rfl hinner) fun _ => law.refl_pure _
  · exact law.refl_fail _
  · exact law.refl_fail _

theorem related_readList : R (readList nested core props e) (readList nested' core props e) := by
  unfold readList
  refine law.bind (law.related_readListElement h) fun _ => law.liftM_bind fun _ => ?_
  refine law.bind (law.related_readPrefix h _) fun _ => ?_
  refine law.bind (law.related_readPrefix h _) fun _ => ?_
  refine law.bind (law.related_readPrefix h _) fun _ => law.liftM_bind fun _ => ?_
  exact law.liftM_bind fun _ => law.refl_pure _

theorem related_readBody (kind : FieldKind) :
    R (readBody ctx nested kind core pos props e) (readBody ctx nested' kind core pos props e) := by
  cases kind with
  | int => exact law.map law.related_readInt _
  | float => exact law.map (law.refl_ofExcept _) _
  | enum => exact law.map law.related_readEnum _
  | set => exact law.map law.related_readSet _
  | bitfield => exact law.related_readBitfield h
  | bundle => exact law.related_readBundle h
  | variant => exact law.related_readVariant h
  | string => exact law.map (law.refl_ofExcept _) _
  | data => exact law.map (law.refl_ofExcept _) _
  | list => exact law.related_readList h
  | ref => exact law.related_readReference
  | optional => exact law.map (law.refl_ofExcept _) _

end

/-- **Readings are related** if the nested readers are, inside of the element. -/
theorem related_readMerged
    (h : ∀ kind core, FieldKind.ofTag? e.tag = some kind →
      readCore ctx pos (e.props kind.properties) e = .ok core →
      nested.RelatedInside R nested' core.window e) :
    R (readMerged ctx nested pos e) (readMerged ctx nested' pos e) := by
  unfold readMerged
  split
  · rename_i kind hkind
    refine law.liftM_bindOk fun core hcore => ?_
    refine law.bind (law.related_readBody (h kind core hkind hcore) kind) fun body => ?_
    refine law.require_bind fun _ => ?_
    exact law.bind (law.refl_warnAll _) fun _ => law.refl_pure _
  · exact law.refl_fail _

end Pass.Law

end WireSchema
