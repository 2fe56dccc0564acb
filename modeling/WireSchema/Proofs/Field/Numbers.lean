import WireSchema.Proofs.Field.BitMembers
import WireSchema.Proofs.Field.Intervals
import WireSchema.Proofs.Field.Sized

/-! # Values of integers and enumerations

The values that are written in an integer or an enumeration are numbers or names of special values
(`IntField.Writes`, `EnumField.Writes`). All of them have been checked when it is read, so they can
be stored in the type; if nothing was found on the way, the wire can carry them after the offset is
added, in as many bits as there are for them (`wireBits_eq`). No step of computing the ranges to
check against leaves 128 bits (`numbers_fit_type_and_wire`). -/

namespace WireSchema

open Markup

/-! ### Types and the wire -/

/-- The number can be stored in the type. -/
def IntType.Holds (t : IntType) (v : Int) : Prop := Representable t.isSigned t.width v

theorem IntType.contains_range_iff {t : IntType} {v : Int} :
    t.range.contains v = true ↔ t.Holds v :=
  contains_bitsRange_iff (by cases t <;> decide)

theorem IntType.holds_zero (t : IntType) : t.Holds 0 := by
  rw [← contains_range_iff]
  cases t <;> decide

/-- The bits that a value of the type has on the wire: those of the member in a bitfield, elsewhere
8 in each byte, or 7 if the type varies in length. -/
def wireWidth (pos : Position) (t : IntType) (length bitLength : Nat) : Nat :=
  if pos.inBitfield then bitLength else if t.isVariable then 7 * length else 8 * length

theorem IntField.contains_wireRange_iff {f : IntField} {v : Int}
    (h : ∃ wire, f.offsetRange? = some wire) : f.wireRange.contains v = true ↔
      (bitsRange f.type.isSigned f.wireBits).contains (v + f.serOffset) = true := by
  obtain ⟨wire, hwire⟩ := h
  rw [wireRange_eq hwire, Interval.contains_iff, Interval.contains_iff]
  unfold offsetRange? at hwire
  dsimp only at hwire
  split_ifs at hwire
  obtain rfl := Option.some.inj hwire
  dsimp only
  omega

section
variable {ctx : Context} {core : FieldCore} {pos : Position} {props : Props} {e : Element}

theorem IntField.ReadFrom.wireBits_eq {f : IntField}
    (h : IntField.ReadFrom ctx core pos props e f) :
    f.wireBits = wireWidth pos f.type f.length f.bitLength ∧ f.wireBits ≤ 64 := by
  have hlength := (bounds_of_readTypeLength h.length).2
  unfold wireBits wireWidth IntType.valueBits
  cases hpos : pos.inBitfield with
  | true =>
    obtain ⟨hfixed, hle, -⟩ := yields_readBitLength hpos _ _ _ h.bits
    have hmax := IntType.maxLength_le_of_fixed hfixed
    simp only [hfixed, if_true, Bool.false_eq_true, if_false]
    split_ifs <;> omega
  | false =>
    have hbits := yields_readBitLength_outside hpos _ _ _ h.bits
    simp only [hbits, Nat.lt_irrefl, Bool.false_eq_true, if_false]
    cases hvaries : f.type.isVariable with
    | true =>
      have hmax : f.type.maxLength ≤ 9 := by cases f.type <;> decide
      simp only [if_true]
      omega
    | false =>
      have hmax := IntType.maxLength_le_of_fixed hvaries
      simp only [Bool.false_eq_true, if_false]
      omega

theorem EnumField.ReadFrom.wireBits_eq {f : EnumField}
    (h : EnumField.ReadFrom ctx core pos props f) :
    min f.bitLength (f.length * 8) = wireWidth pos f.type f.length f.bitLength ∧
      min f.bitLength (f.length * 8) ≤ 64 := by
  have hlength := (bounds_of_readTypeLength h.length).2
  have hmax := IntType.maxLength_le_of_fixed h.fixed
  unfold wireWidth
  cases hpos : pos.inBitfield with
  | true =>
    obtain ⟨-, hle, -⟩ := yields_readBitLength hpos _ _ _ h.bits
    simp only [if_true]
    omega
  | false =>
    have hbits := yields_readBitLength_outside hpos _ _ _ h.bits
    simp only [h.fixed, Bool.false_eq_true, if_false]
    omega

/-! ### What is written -/

/-- A number that is written in an integer: the default value, a special value, or a bound of a
valid range. -/
inductive IntField.Writes (props : Props) (e : Element) (f : IntField) : Int → Prop
  | default {s : String} {v : Int} (hs : props.single "defaultValue" = .ok (some s))
    (hv : f.valueOf? s = some v) : Writes props e f v
  | special {c : Element} {v : Int} (hc : c ∈ e.childrenNamed "special") (hv : GivesValue c v) :
    Writes props e f v
  | range {s lo hi : String} {v : Int} (hs : s ∈ props.all "validRange")
    (hbounds : Literal.range? s = some (lo, hi))
    (hv : f.valueOf? lo = some v ∨ f.valueOf? hi = some v) : Writes props e f v
  | bound {key s : String} {v : Int} (hkey : key ∈ ["validValue", "validMin", "validMax"])
    (hs : s ∈ props.all key) (hv : f.valueOf? s = some v) : Writes props e f v

/-- A number that is written in an enumeration: a value, or the default value. -/
inductive EnumField.Writes (props : Props) (e : Element) (f : EnumField) : Int → Prop
  | value {c : Element} {v : Int} (hc : c ∈ e.childrenNamed "validValue") (hv : GivesValue c v) :
    Writes props e f v
  | default {s : String} {v : Int} (hs : props.single "defaultValue" = .ok (some s))
    (hv : Literal.int? s = some v ∨
      Literal.int? s = none ∧ ∃ x, f.value? s = some x ∧ x.value = v) : Writes props e f v

theorem GivesValue.unique {v w : Int} (hv : GivesValue e v) (hw : GivesValue e w) : v = w := by
  obtain ⟨s, hs, hv⟩ := hv
  obtain ⟨t, ht, hw⟩ := hw
  obtain rfl : s = t := Except.ok.inj (hs.symm.trans ht)
  exact Option.some.inj (hv.symm.trans hw)

theorem mem_of_readRanges {α : Type} {valueOf? : String → Option α} {least greatest : α}
    {rs : List (α × α)} (h : readRanges props valueOf? least greatest = .ok rs) :
    (∀ s ∈ props.all "validRange", ∃ lo hi a b, Literal.range? s = some (lo, hi) ∧
      valueOf? lo = some a ∧ valueOf? hi = some b ∧ (a, b) ∈ rs) ∧
    (∀ s ∈ props.all "validValue", ∃ v, valueOf? s = some v ∧ (v, v) ∈ rs) ∧
    (∀ s ∈ props.all "validMin", ∃ v, valueOf? s = some v ∧ (v, greatest) ∈ rs) ∧
    ∀ s ∈ props.all "validMax", ∃ v, valueOf? s = some v ∧ (least, v) ∈ rs := by
  unfold readRanges at h
  extract_lets value at h
  have hvalue {key s : String} {v : α} (h : value key s = .ok v) : valueOf? s = some v := by
    unfold value at h
    split at h
    · rename_i w hw
      rw [hw, Except.ok.inj h]
    · cases h
  obtain ⟨ranges, hranges, h⟩ := bind_eq_ok.mp h
  obtain ⟨values, hvalues, h⟩ := bind_eq_ok.mp h
  obtain ⟨mins, hmins, h⟩ := bind_eq_ok.mp h
  obtain ⟨maxs, hmaxs, h⟩ := bind_eq_ok.mp h
  obtain ⟨full, -, h⟩ := bind_eq_ok.mp h
  obtain rfl := Except.ok.inj h
  refine ⟨fun s hs => ?_, fun s hs => ?_, fun s hs => ?_, fun s hs => ?_⟩
  · obtain ⟨r, hr, hread⟩ := exists_mem_mapM hranges s hs
    split at hread
    · rename_i lo hi hbounds
      obtain ⟨a, ha, hread⟩ := bind_eq_ok.mp hread
      obtain ⟨b, hb, hread⟩ := bind_eq_ok.mp hread
      obtain rfl := Except.ok.inj hread
      exact ⟨lo, hi, a, b, hbounds, hvalue ha, hvalue hb, by simp [hr]⟩
    · cases hread
  · obtain ⟨r, hr, hread⟩ := exists_mem_mapM hvalues s hs
    obtain ⟨v, hv, hread⟩ := bind_eq_ok.mp hread
    obtain rfl := Except.ok.inj hread
    exact ⟨v, hvalue hv, by simp [hr]⟩
  · obtain ⟨r, hr, hread⟩ := exists_mem_mapM hmins s hs
    obtain ⟨v, hv, hread⟩ := bind_eq_ok.mp hread
    obtain rfl := Except.ok.inj hread
    exact ⟨v, hvalue hv, by simp [hr]⟩
  · obtain ⟨r, hr, hread⟩ := exists_mem_mapM hmaxs s hs
    obtain ⟨v, hv, hread⟩ := bind_eq_ok.mp hread
    obtain rfl := Except.ok.inj hread
    exact ⟨v, hvalue hv, by simp [hr]⟩

/-- **What is written in an integer has been checked.** -/
theorem IntField.Checked.admits_of_writes {quiet : Prop} {f : IntField} {v : Int}
    (h : IntField.Checked ctx core pos props e quiet f) (hv : f.Writes props e v) :
    Admits f.typeRange f.wireRange quiet v := by
  obtain ⟨rs, hrs, hranges⟩ := h.ranges
  obtain ⟨hrange, hvalue, hmin, hmax⟩ := mem_of_readRanges hrs
  have hbound {a b : Int} (hmem : (a, b) ∈ rs) :
      Admits f.typeRange f.wireRange quiet a ∧ Admits f.typeRange f.wireRange quiet b := by
    refine (h.bounds ⟨a, b⟩ ?_).2
    rw [hranges]
    exact List.mem_map_of_mem hmem
  cases hv with
  | @default s v hs hv =>
    rcases h.default with ⟨hnone, -⟩ | ⟨t, ht, hread, hadmits⟩
    · rw [hs] at hnone
      cases hnone
    · obtain rfl : s = t := Option.some.inj (Except.ok.inj (hs.symm.trans ht))
      rwa [← Option.some.inj (hv.symm.trans hread)] at hadmits
  | @special c v hc hv =>
    obtain ⟨-, hall⟩ := exists_mem_foldlM h.specials
    obtain ⟨x, hx, known, hread⟩ := hall c hc
    rw [hv.unique (readSpecial_ok ctx core c hread).1]
    exact h.special x hx
  | @range s lo hi v hs hbounds hv =>
    obtain ⟨lo', hi', a, b, hbounds', ha, hb, hmem⟩ := hrange s hs
    obtain ⟨rfl, rfl⟩ := Prod.mk.inj (Option.some.inj (hbounds.symm.trans hbounds'))
    rcases hv with hv | hv
    · rw [Option.some.inj (hv.symm.trans ha)]
      exact (hbound hmem).1
    · rw [Option.some.inj (hv.symm.trans hb)]
      exact (hbound hmem).2
  | @bound key s v hkey hs hv =>
    simp only [List.mem_cons, List.not_mem_nil, or_false] at hkey
    rcases hkey with rfl | rfl | rfl
    · obtain ⟨w, hw, hmem⟩ := hvalue s hs
      rw [Option.some.inj (hv.symm.trans hw)]
      exact (hbound hmem).1
    · obtain ⟨w, hw, hmem⟩ := hmin s hs
      rw [Option.some.inj (hv.symm.trans hw)]
      exact (hbound hmem).1
    · obtain ⟨w, hw, hmem⟩ := hmax s hs
      rw [Option.some.inj (hv.symm.trans hw)]
      exact (hbound hmem).2

/-- **What is written in an enumeration has been checked.** -/
theorem EnumField.Checked.admits_of_writes {quiet : Prop} {f : EnumField} {v : Int}
    (h : EnumField.Checked ctx core pos props e quiet f) (hv : f.Writes props e v) :
    Admits f.typeRange f.wireRange quiet v := by
  cases hv with
  | @value c v hc hv =>
    obtain ⟨x, hx, hgives⟩ := h.declared c hc
    rw [hv.unique hgives]
    exact h.value x hx
  | @default s v hs hv =>
    rcases h.default with ⟨hnone, -⟩ | ⟨t, ht, hread, hadmits⟩
    · rw [hs] at hnone
      cases hnone
    · obtain rfl : s = t := Option.some.inj (Except.ok.inj (hs.symm.trans ht))
      have hsame : v = f.defaultValue := by
        unfold readEnumDefault at hread
        rcases hv with hv | ⟨hnone, x, hx, rfl⟩
        · rw [hv] at hread
          exact Except.ok.inj hread
        · rw [hnone] at hread
          dsimp only at hread
          split_ifs at hread
          rw [hx] at hread
          exact Except.ok.inj hread
      rw [hsame]
      exact hadmits

/-! ### What is read -/

/-- The numbers of an integer can be stored in its type, and its valid ranges are not reversed. -/
structure IntField.Stored (f : IntField) : Prop where
  default : f.type.Holds f.defaultValue
  specials : ∀ s ∈ f.specials, f.type.Holds s.value
  ranges : ∀ r ∈ f.validRanges, r.lo ≤ r.hi ∧ f.type.Holds r.lo ∧ f.type.Holds r.hi

/-- The numbers of an enumeration can be stored in its type. -/
structure EnumField.Stored (f : EnumField) : Prop where
  default : f.type.Holds f.defaultValue
  values : ∀ v ∈ f.values, f.type.Holds v.value

theorem IntField.Checked.stored {quiet : Prop} {f : IntField}
    (h : IntField.Checked ctx core pos props e quiet f) : f.Stored where
  default := by
    rcases h.default with ⟨-, hzero⟩ | ⟨_, -, -, hadmits⟩
    · rw [hzero]
      exact f.type.holds_zero
    · exact IntType.contains_range_iff.mp hadmits.1
  specials s hs := IntType.contains_range_iff.mp (h.special s hs).1
  ranges r hr := by
    obtain ⟨hle, hlo, hhi⟩ := h.bounds r hr
    exact ⟨hle, IntType.contains_range_iff.mp hlo.1, IntType.contains_range_iff.mp hhi.1⟩

theorem EnumField.Checked.stored {quiet : Prop} {f : EnumField}
    (h : EnumField.Checked ctx core pos props e quiet f) : f.Stored where
  default := by
    rcases h.default with ⟨-, hzero⟩ | ⟨_, -, -, hadmits⟩
    · rw [hzero]
      exact f.type.holds_zero
    · exact IntType.contains_range_iff.mp hadmits.1
  values v hv := IntType.contains_range_iff.mp (h.value v hv).1

theorem IntField.Checked.representable {f : IntField} {v : Int}
    (h : IntField.Checked ctx core pos props e True f) (hv : f.Writes props e v) :
    Representable f.type.isSigned (wireWidth pos f.type f.length f.bitLength)
      (v + f.serOffset) := by
  obtain ⟨hwidth, hle⟩ := h.wireBits_eq
  have hwire := (h.admits_of_writes hv).2 trivial
  rw [contains_wireRange_iff h.offset] at hwire
  rw [← hwidth]
  exact (contains_bitsRange_iff hle).mp hwire

theorem EnumField.Checked.representable {f : EnumField} {v : Int}
    (h : EnumField.Checked ctx core pos props e True f) (hv : f.Writes props e v) :
    Representable f.type.isSigned (wireWidth pos f.type f.length f.bitLength) v := by
  obtain ⟨hwidth, hle⟩ := h.wireBits_eq
  have hwire := (h.admits_of_writes hv).2 trivial
  rw [← hwidth]
  exact (contains_bitsRange_iff hle).mp hwire

end

/-- **The numbers of integers and enumerations fit their types and the wire.** When an integer or an
enumeration is read, its numbers can be stored in its type and its valid ranges are not reversed; if
nothing is found on the way, each number that is written in it, after the offset of an integer is
added, can be carried by the wire. All numbers that are read, and all that the ranges to check
against are computed from, have 128 bits. -/
theorem numbers_fit_type_and_wire (ctx : Context) (core : FieldCore) (pos : Position)
    (props : Props) (e : Element) :
    (∀ f, (readInt ctx core pos props e).result = .ok f →
      f.Stored ∧
      ((readInt ctx core pos props e).findings = [] → ∀ v, f.Writes props e v →
        Representable f.type.isSigned (wireWidth pos f.type f.length f.bitLength)
          (v + f.serOffset)) ∧
      f.wordOffsetRange? = some f.wireRange) ∧
    (∀ f, (readEnum ctx core pos props e).result = .ok f →
      f.Stored ∧
      ((readEnum ctx core pos props e).findings = [] → ∀ v, f.Writes props e v →
        Representable f.type.isSigned (wireWidth pos f.type f.length f.bitLength) v) ∧
      wordBitsRange? f.type.isSigned (min f.bitLength (f.length * 8)) = some f.wireRange) ∧
    (∀ t : IntType, wordBitsRange? t.isSigned t.width = some t.range) ∧
    ∀ s v, Literal.int? s = some v → wordInterval.contains v = true := by
  refine ⟨fun f hf => ?_, fun f hf => ?_, fun t => wordBitsRange?_eq _ _,
    fun _ _ => Literal.contains_of_int?⟩
  · have hchecked := checked_of_readInt ctx core pos props e (Pass.endsWith_false.mpr hf)
    refine ⟨hchecked.stored, fun hquiet v hv => ?_, ?_⟩
    · exact (checked_of_readInt ctx core pos props e ⟨hf, fun _ => hquiet⟩).representable hv
    · obtain ⟨wire, hwire⟩ := hchecked.offset
      rw [f.wordOffsetRange?_eq, IntField.wireRange_eq hwire, hwire]
  · have hchecked := checked_of_readEnum ctx core pos props e (Pass.endsWith_false.mpr hf)
    refine ⟨hchecked.stored, fun hquiet v hv => ?_, wordBitsRange?_eq _ _⟩
    exact (checked_of_readEnum ctx core pos props e ⟨hf, fun _ => hquiet⟩).representable hv

/-- An integer of one byte, which holds on the wire what is ten less in memory. -/
def shifted : Element :=
  ⟨"int", [("name", "A"), ("type", "uint8"), ("serOffset", "10"), ("defaultValue", "top"),
      ("validRange", "[1,top]")],
    [⟨"special", [("name", "top"), ("val", "245")], [], "", 2⟩], "", 1⟩

/-- An enumeration of four bits in a bitfield. -/
def nibble : Element :=
  ⟨"enum", [("name", "E"), ("type", "uint8"), ("bitLength", "4"), ("defaultValue", "last")],
    [⟨"validValue", [("name", "last"), ("val", "15")], [], "", 2⟩], "", 1⟩

/-- Reads the integer. -/
def readShifted : Pass IntField :=
  readInt ⟨[], 0, .little, ""⟩ ⟨"A", "", "", .always, "A", .none, 1⟩ .inNamespace
    (shifted.props FieldKind.int.properties) shifted

/-- Reads the enumeration. -/
def readNibble : Pass EnumField :=
  readEnum ⟨[], 0, .little, ""⟩ ⟨"E", "", "", .always, "", .none, 1⟩ (.ofBit .always)
    (nibble.props FieldKind.enum.properties) nibble

theorem shifted_and_nibble_fit :
    (∃ f, readShifted.result = .ok f ∧ f.Stored ∧
      Representable f.type.isSigned 8 (245 + f.serOffset)) ∧
    ∃ f, readNibble.result = .ok f ∧ f.Stored ∧ Representable f.type.isSigned 4 15 := by
  constructor
  · have hquiet : readShifted.findings = [] := by decide +kernel
    have heval : readShifted.result.toOption.map (fun f =>
        (f.type, f.length, f.valueOf? "top")) = some (.uint8, 1, some 245) := by
      decide +kernel
    obtain ⟨f, hread, heval⟩ := Option.map_eq_some_iff.mp heval
    have hread := toOption_eq_some.mp hread
    simp only [Prod.mk.injEq] at heval
    obtain ⟨htype, hlength, htop⟩ := heval
    obtain ⟨hstored, hwire, -⟩ := (numbers_fit_type_and_wire _ _ _ _ _).1 f hread
    have hwritten : f.Writes (shifted.props FieldKind.int.properties) shifted 245 :=
      .default (s := "top") (by decide) htop
    have hfits := hwire hquiet 245 hwritten
    have hwidth : wireWidth .inNamespace f.type f.length f.bitLength = 8 := by
      rw [wireWidth, htype, hlength]
      rfl
    rw [hwidth] at hfits
    exact ⟨f, hread, hstored, hfits⟩
  · have hquiet : readNibble.findings = [] := by decide +kernel
    have heval : readNibble.result.toOption.map (fun f => f.bitLength) = some 4 := by
      decide +kernel
    obtain ⟨f, hread, hbits⟩ := Option.map_eq_some_iff.mp heval
    have hread := toOption_eq_some.mp hread
    obtain ⟨-, hall, -⟩ := numbers_fit_type_and_wire ⟨[], 0, .little, ""⟩
      ⟨"E", "", "", .always, "", .none, 1⟩ (.ofBit .always)
      (nibble.props FieldKind.enum.properties) nibble
    obtain ⟨hstored, hwire, -⟩ := hall f hread
    have hwritten : f.Writes (nibble.props FieldKind.enum.properties) nibble 15 :=
      .value List.mem_cons_self ⟨"15", by decide, by decide⟩
    have hfits := hwire hquiet 15 hwritten
    have hwidth : wireWidth (.ofBit .always) f.type f.length f.bitLength = 4 := hbits
    rw [hwidth] at hfits
    exact ⟨f, hread, hstored, hfits⟩

end WireSchema
