import Mathlib.Data.List.Basic
import WireSchema.Field.Declaration
import WireSchema.Proofs.Finding.Carry
import WireSchema.Proofs.Markup.Inheritance

/-! # Declarations that say the same

Two declarations are alike if they have the same properties and children, but for their names and
what they reuse, and stand in the same window (`Alike`). Whatever is read of one of them is read of
the other one. Their names only show in errors, and their lines only in the references that they
hold themselves (`Alike.carries_readInt` and the like, reader by reader). -/

namespace WireSchema

open Markup

/-- Both say the same, but for their names and what they reuse. The cores are those of the two
elements, each with the line of its element. -/
structure Alike (ctx ctx' : Context) (core core' : FieldCore) (props props' : Props)
    (e e' : Element) : Prop where
  version : ctx'.schemaVersion = ctx.schemaVersion
  endian : ctx'.endian = ctx.endian
  window : core'.window = core.window
  line : core.line = e.line
  line' : core'.line = e'.line
  all : ∀ key, key ≠ "name" → key ≠ "reuse" → props'.all key = props.all key
  children : ∀ accept : String → Bool, accept "name" = false → accept "reuse" = false →
    e'.children.filter (fun c => accept c.tag) = e.children.filter fun c => accept c.tag

namespace Alike

variable {ctx ctx' : Context} {core core' : FieldCore} {props props' : Props} {e e' : Element}
  {pos : Position}

section properties
variable (h : Alike ctx ctx' core core' props props' e e')
include h

theorem single (key : String) (hname : key ≠ "name") (hreuse : key ≠ "reuse") :
    props'.single key = props.single key := by
  rw [Props.single_eq, Props.single_eq, h.all key hname hreuse]

theorem required (key : String) (hname : key ≠ "name") (hreuse : key ≠ "reuse") :
    props'.required key = props.required key := by
  rw [Props.required, Props.required, h.single key hname hreuse]

theorem parsed (key : String) (hname : key ≠ "name") (hreuse : key ≠ "reuse") {α : Type}
    (read : String → Option α) : props'.parsed key read = props.parsed key read := by
  rw [Props.parsed, Props.parsed, h.single key hname hreuse]

theorem parsedD (key : String) (hname : key ≠ "name") (hreuse : key ≠ "reuse") {α : Type}
    (read : String → Option α) (absent : α) :
    props'.parsedD key read absent = props.parsedD key read absent := by
  rw [Props.parsedD, Props.parsedD, h.parsed key hname hreuse]

theorem textOf (key : String) (hname : key ≠ "name") (hreuse : key ≠ "reuse") :
    props'.textOf key = props.textOf key := by
  rw [Props.textOf, Props.textOf, h.single key hname hreuse]

theorem readFlag (key : String) (hname : key ≠ "name") (hreuse : key ≠ "reuse") :
    WireSchema.readFlag props' key = WireSchema.readFlag props key :=
  h.parsedD key hname hreuse _ _

theorem readEndian : WireSchema.readEndian ctx' props' = WireSchema.readEndian ctx props := by
  rw [WireSchema.readEndian, WireSchema.readEndian, h.endian]
  exact h.parsedD _ (by decide) (by decide) _ _

theorem childrenNamed (tag : String) (hname : tag ≠ "name") (hreuse : tag ≠ "reuse") :
    e'.childrenNamed tag = e.childrenNamed tag :=
  h.children (· == tag) (beq_false_of_ne (Ne.symm hname)) (beq_false_of_ne (Ne.symm hreuse))

theorem fieldChildren : WireSchema.fieldChildren e' = WireSchema.fieldChildren e :=
  h.children isFieldTag (by decide) (by decide)

end properties

/-! ### Values -/

theorem carries_checkValue (what : String) (v : Int) (type wire : Interval) :
    Carries Eq (checkValue core what v type wire).result
      (checkValue core' what v type wire).result := by
  unfold checkValue
  split_ifs
  · exact carries_fail _ _
  · exact carries_rfl _
  · exact carries_rfl _

theorem carries_readBitLength (h : Alike ctx ctx' core core' props props' e e') (varies : Bool)
    (limit : Nat) :
    Carries Eq (readBitLength props core pos varies limit).result
      (readBitLength props' core' pos varies limit).result := by
  unfold readBitLength
  rw [h.single "bitLength" (by decide) (by decide)]
  refine carries_require.passBindEq fun _ => carries_passBind fun given => ?_
  cases given with
  | none => exact carries_rfl _
  | some s =>
    dsimp only
    split_ifs
    · exact carries_rfl _
    · cases Literal.word64? s with
      | none => exact carries_fail _ _
      | some bits =>
        dsimp only
        split_ifs
        · exact carries_fail _ _
        · exact carries_rfl _

theorem carries_readTypeLength (h : Alike ctx ctx' core core' props props' e e') (type : IntType) :
    Carries Eq (readTypeLength props core type) (readTypeLength props' core' type) := by
  unfold readTypeLength
  rw [h.parsed "length" (by decide) (by decide)]
  refine carries_bind fun given => ?_
  cases given with
  | none => exact carries_rfl _
  | some n =>
    dsimp only
    split_ifs
    · exact carries_throwBind
    · exact carries_rfl _

theorem carries_windowRead (h : Alike ctx ctx' core core' props props' e e') (name name' : String)
    {parent : Window} {version : Nat} :
    Carries Eq (Window.read name props parent version)
      (Window.read name' props' parent version) := by
  unfold Window.read
  simp (disch := decide) only [h.parsedD]
  refine carries_bind fun since => carries_bind fun deprecated => ?_
  unfold Window.within
  split_ifs
  · exact carries_error _ _
  · exact carries_error _ _
  · exact carries_error _ _
  · exact carries_error _ _
  · exact carries_rfl _

/-! ### Numbers -/

section numbers
variable (h : Alike ctx ctx' core core' props props' e e')
include h

theorem readSpecials {α : Type} (read : String → Option α) :
    WireSchema.readSpecials ctx' core' read e' = WireSchema.readSpecials ctx core read e := by
  unfold WireSchema.readSpecials readSpecial
  rw [h.childrenNamed "special" (by decide) (by decide), h.window, h.version]

theorem readRanges {α : Type} (valueOf? : String → Option α) (least greatest : α) :
    WireSchema.readRanges props' valueOf? least greatest =
      WireSchema.readRanges props valueOf? least greatest := by
  unfold WireSchema.readRanges
  simp (disch := decide) only [h.all, h.readFlag]

omit h in
theorem carries_checkRange (type wire r : Interval) :
    Carries Eq (checkRange core type wire r).result (checkRange core' type wire r).result := by
  unfold checkRange
  refine carries_require.passBindEq fun _ => ?_
  exact (carries_checkValue _ _ _ _).passBindEq fun _ => carries_checkValue _ _ _ _

theorem carries_readInt :
    Carries Eq (readInt ctx core pos props e).result (readInt ctx' core' pos props' e').result := by
  unfold readInt
  rw [h.required "type" (by decide) (by decide), h.readSpecials, h.readEndian]
  simp (disch := decide) only [h.parsedD, h.single, h.parsed, h.readRanges]
  refine carries_passBind fun rawType => ?_
  cases IntType.ofName? rawType with
  | none => exact carries_fail _ _
  | some type =>
    refine (carries_liftM (h.carries_readTypeLength type)).passBindEq fun length => ?_
    refine (h.carries_readBitLength _ _).passBindEq fun bitLength => ?_
    refine carries_passBind fun serOffset => carries_passBind fun scaling => ?_
    refine carries_passBind fun decimals => carries_passBind fun endian => ?_
    refine carries_passBind fun units => carries_passBind fun specials => ?_
    split
    · refine (carries_passForM _ fun c => carries_checkValue _ _ _ _).passBindEq fun _ => ?_
      refine carries_passBind fun given => ?_
      have hranges (field : IntField) (least greatest : Int) (wire : Interval) (v : Int) :
          Carries Eq
            (do
              let ranges ← liftM (WireSchema.readRanges props field.valueOf? least greatest)
              let ranges := ranges.map fun r => (⟨r.1, r.2⟩ : Interval)
              ranges.forM (checkRange core field.typeRange wire)
              return { field with defaultValue := v, validRanges := ranges } :
                Pass IntField).result
            (do
              let ranges ← liftM (WireSchema.readRanges props field.valueOf? least greatest)
              let ranges := ranges.map fun r => (⟨r.1, r.2⟩ : Interval)
              ranges.forM (checkRange core' field.typeRange wire)
              return { field with defaultValue := v, validRanges := ranges } :
                Pass IntField).result :=
        carries_passBind fun ranges =>
          (carries_passForM _ fun r => carries_checkRange _ _ r).passBindEq fun _ => carries_rfl _
      cases given with
      | none => exact carries_passBind fun v => hranges _ _ _ _ v
      | some v =>
        refine (carries_checkValue _ _ _ _).passBindEq fun _ => ?_
        exact carries_passBind fun v => hranges _ _ _ _ v
    · exact carries_fail _ _

omit h in
theorem carries_checkReal (type : FloatType) (v : Float) :
    Carries Eq (checkReal core type v) (checkReal core' type v) := by
  unfold checkReal
  split_ifs
  · exact carries_rfl _
  · exact carries_error _ _

omit h in
theorem carries_checkRealRange (type : FloatType) (r : Float × Float) :
    Carries Eq (checkRealRange core type r) (checkRealRange core' type r) := by
  unfold checkRealRange
  dsimp only
  split_ifs
  · exact carries_throwBind
  · exact (carries_checkReal _ _).bindEq fun _ => carries_checkReal _ _

theorem carries_readFloat :
    Carries Eq (readFloat ctx core props e) (readFloat ctx' core' props' e') := by
  unfold readFloat
  rw [h.required "type" (by decide) (by decide), h.readSpecials, h.readEndian]
  simp (disch := decide) only [h.single, h.parsed, h.readRanges]
  refine carries_bind fun rawType => ?_
  cases FloatType.ofName? rawType with
  | none => exact carries_throw _ _
  | some type =>
    refine carries_bind fun endian => carries_bind fun specials => carries_bind fun units => ?_
    refine (carries_forM _ fun s => carries_checkReal _ _).bindEq fun _ => ?_
    refine carries_bind fun given => ?_
    have hranges (v : Float) {valueOf? : String → Option Float} :
        Carries Eq
          (do
            let ranges ← WireSchema.readRanges props valueOf? Decimal.negInfinity Decimal.infinity
            ranges.forM (checkRealRange core type)
            return (⟨type, endian, v, ranges, specials, units⟩ : FloatField))
          (do
            let ranges ← WireSchema.readRanges props valueOf? Decimal.negInfinity Decimal.infinity
            ranges.forM (checkRealRange core' type)
            return (⟨type, endian, v, ranges, specials, units⟩ : FloatField)) :=
      carries_bind fun ranges =>
        (carries_forM _ fun r => carries_checkRealRange _ r).bindEq fun _ => carries_rfl _
    cases given with
    | none => exact carries_bind fun v => hranges v
    | some v => exact (carries_checkReal _ _).bindEq fun _ => carries_bind fun v => hranges v

end numbers

/-! ### Enumerations and sets -/

section enumerations
variable (h : Alike ctx ctx' core core' props props' e e')
include h

theorem carries_readEnumValue (f : EnumField) (c : Element) :
    Carries Eq (readEnumValue ctx core f c).result (readEnumValue ctx' core' f c).result := by
  unfold readEnumValue
  rw [h.window, h.version]
  refine carries_passBind fun name => carries_passBind fun _ => carries_passBind fun _ => ?_
  refine carries_passBind fun raw => ?_
  cases Literal.int? raw with
  | none => exact carries_fail _ _
  | some value =>
    refine (carries_checkValue _ _ _ _).passBindEq fun _ => ?_
    dsimp only
    split_ifs
    · exact carries_rfl _
    · cases f.namesOf value with
      | nil => exact carries_rfl _
      | cons existing rest => exact carries_failBind

omit h in
theorem carries_readEnumDefault (f : EnumField) (s : String) :
    Carries Eq (readEnumDefault core f s) (readEnumDefault core' f s) := by
  unfold readEnumDefault
  cases Literal.int? s with
  | some v => exact carries_rfl _
  | none =>
    dsimp only
    split_ifs
    · cases f.value? s with
      | some v => exact carries_rfl _
      | none => exact carries_error _ _
    · exact carries_error _ _

theorem carries_readEnum :
    Carries Eq (readEnum ctx core pos props e).result
      (readEnum ctx' core' pos props' e').result := by
  unfold readEnum
  rw [h.required "type" (by decide) (by decide), h.readEndian,
    h.childrenNamed "validValue" (by decide) (by decide)]
  simp (disch := decide) only [h.single, h.readFlag]
  refine carries_passBind fun rawType => ?_
  cases (IntType.ofName? rawType).filter (!·.isVariable) with
  | none => exact carries_fail _ _
  | some type =>
    refine (carries_liftM (h.carries_readTypeLength type)).passBindEq fun length => ?_
    refine carries_passBind fun endian => ?_
    refine (h.carries_readBitLength _ _).passBindEq fun bitLength => ?_
    refine carries_passBind fun _ => carries_passBind fun _ => carries_passBind fun _ => ?_
    refine (carries_passFoldlM _ _ fun f c =>
      (h.carries_readEnumValue f c).passBindEq fun _ => carries_rfl _).passBindEq fun field => ?_
    refine carries_require.passBindEq fun _ => carries_passBind fun given => ?_
    cases given with
    | none => exact carries_rfl _
    | some s =>
      refine (carries_liftM (carries_readEnumDefault field s)).passBindEq fun v => ?_
      exact (carries_checkValue _ _ _ _).passBindEq fun _ => carries_rfl _

omit h in
theorem carries_readSetType (type : Option IntType) (length : Option Nat) :
    Carries Eq (readSetType core type length) (readSetType core' type length) := by
  unfold readSetType
  split
  · exact carries_rfl _
  · split_ifs
    · exact carries_rfl _
    · exact carries_error _ _
  · split
    · exact carries_rfl _
    · exact carries_error _ _
  · exact carries_error _ _

theorem carries_readSetBit (f : SetField) (c : Element) :
    Carries Eq (readSetBit ctx core f c) (readSetBit ctx' core' f c) := by
  unfold readSetBit
  rw [h.window, h.version]
  refine carries_bind fun name => carries_bind fun _ => ?_
  dsimp only
  split
  · exact carries_throwBind
  · refine carries_bind fun raw => ?_
    cases Literal.word64? raw with
    | none => exact carries_throw _ _
    | some idx =>
      dsimp only
      split
      · exact carries_throwBind
      · split
        · exact carries_rfl _
        · cases f.bits.find? (·.idx == idx) with
          | none => exact carries_rfl _
          | some existing => exact carries_throwBind

theorem carries_readSet :
    Carries Eq (readSet ctx core pos props e).result
      (readSet ctx' core' pos props' e').result := by
  unfold readSet
  rw [h.readEndian, h.childrenNamed "bit" (by decide) (by decide)]
  simp (disch := decide) only [h.parsed, h.readFlag]
  refine carries_passBind fun type => carries_passBind fun length => ?_
  refine (carries_liftM (carries_readSetType type length)).passBindEq fun r => ?_
  refine carries_passBind fun endian => ?_
  refine (h.carries_readBitLength _ _).passBindEq fun bitLength => ?_
  refine carries_passBind fun _ => carries_passBind fun _ => ?_
  refine carries_passBind fun _ => carries_passBind fun _ => ?_
  refine carries_passFoldlM _ _ fun f c => ?_
  exact (carries_liftM (h.carries_readSetBit f c)).passBindEq fun _ => carries_rfl _

end enumerations

end Alike

end WireSchema
