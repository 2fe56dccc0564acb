import Mathlib.Algebra.Ring.Nat
import WireSchema.Proofs.Field.BitMembers
import WireSchema.Proofs.Field.Sized

/-! # Lengths of bitfields

An integer, enumeration, set or reference takes between 1 and 64 bits as a member of a bitfield
(`takesBits_readField`). The members have to fill the bytes of the bitfield. Where no length is
declared these are as many as the bits need, but one at least and eight at most, so that members
that fill them have a positive multiple of 8 bits, up to 64 (`fills_derived_iff`); a declared length
stands for itself (`readBitfieldLength_eq_ok`). A bitfield is accepted if its members fill its bytes
and the byte order that it declares is one (`bitfields_fill_bytes`). -/

namespace WireSchema

open Markup

/-! ### Bits of members -/

/-- The field takes as many bits as a member of a bitfield can take. -/
def Field.TakesBits (f : Field) : Prop := 1 ≤ f.bitLength ∧ f.bitLength ≤ 64

section
variable {ctx : Context} {core : FieldCore} {pos : Position} {props : Props} {e : Element}

theorem bits_of_readBitLength {varies : Bool} {type : IntType} {length n : Nat}
    (hpos : pos.inBitfield = true) (htype : type.isVariable = false)
    (hlength : 1 ≤ length ∧ length ≤ type.maxLength)
    (h : (readBitLength props core pos varies (length * 8)).result = .ok n) : 1 ≤ n ∧ n ≤ 64 := by
  obtain ⟨-, hle, hpositive⟩ := yields_readBitLength hpos _ _ n h
  have hmax := IntType.maxLength_le_of_fixed htype
  have hone := hpositive (by omega)
  omega

/-- **A member of a kind that bitfields take is read with at least one bit and with no more than
64.** -/
theorem takesBits_readBody (nested : NestedReader) {kind : FieldKind}
    (hpos : pos.inBitfield = true) (hkind : kind.isBitMember = true) :
    (readBody ctx nested kind core pos props e).Yields fun body =>
      (Field.mk core body).TakesBits := by
  cases kind with
  | int =>
    refine Pass.yields_map ((yields_readInt ctx core pos props e).imp fun f h => ?_)
    have hfixed := (yields_readBitLength hpos _ _ _ h.bits).1
    exact bits_of_readBitLength hpos hfixed (bounds_of_readTypeLength h.length) h.bits
  | enum =>
    refine Pass.yields_map ((yields_readEnum ctx core pos props e).imp fun f h => ?_)
    exact bits_of_readBitLength hpos h.fixed (bounds_of_readTypeLength h.length) h.bits
  | set =>
    refine Pass.yields_map ((yields_readSet ctx core pos props e).imp fun f h => ?_)
    obtain ⟨type, length, -, hlength⟩ := h.length
    exact bits_of_readBitLength hpos h.fixed (bounds_of_readSetType hlength) h.bits
  | ref =>
    intro body hbody
    have hfits := fitsBits_readReference hpos body hbody
    have hkind := yields_inner_readReference (P := fun _ => True) body hbody
    cases body with
    | ref target bitLength =>
      obtain ⟨n, rfl, hbounds⟩ := hfits
      exact hbounds
    | _ => simp [Body.kind] at hkind
  | _ => simp [FieldKind.isBitMember] at hkind

theorem takesBits_readField (levels : Nat) (hpos : pos.inBitfield = true) :
    (readField ctx levels pos e).Yields fun f => f.kind.isBitMember = true → f.TakesBits := by
  cases levels with
  | zero => exact Pass.yields_endless
  | succ levels =>
    refine Pass.yields_bind fun merged f hf hkind => ?_
    obtain ⟨kind, -, -, hbody, -⟩ := readMerged_eq_ok.mp hf
    have hinner : NestedReader.GivesIn (readField ctx levels) f.core.window fun _ => True :=
      fun _ _ _ _ _ => trivial
    obtain ⟨rfl, -⟩ := yields_inner_readBody hinner kind _ hbody
    obtain ⟨core, body⟩ := f
    exact takesBits_readBody _ hpos hkind _ hbody

end

/-! ### The length -/

theorem totalBits_eq_sum (ms : List Field) : totalBits ms = (ms.map Field.bitLength).sum := by
  induction ms with
  | nil => rfl
  | cons m ms ih => rw [totalBits, ih, List.map_cons, List.sum_cons]

/-- The bytes that are derived from bits are filled by them if these are whole bytes, eight at
most. -/
theorem fills_derived_iff {bits : Nat} :
    bits = min bitfieldLimit (max 1 ((bits + 7) / 8)) * 8 ↔ 8 ∣ bits ∧ 0 < bits ∧ bits ≤ 64 := by
  unfold bitfieldLimit
  omega

theorem Literal.below?_eq_some {limit n : Nat} {s : String} :
    below? limit s = some n ↔ int? s = some (n : Int) ∧ n < limit := by
  unfold below?
  constructor
  · intro h
    obtain ⟨v, hv, h⟩ := Option.bind_eq_some_iff.mp h
    split_ifs at h with hbounds
    cases h
    rw [Int.toNat_of_nonneg hbounds.1]
    exact ⟨hv, by omega⟩
  · rintro ⟨hv, hlt⟩
    simp [hv, hlt]

section
variable {ctx : Context} {nested : NestedReader} {core : FieldCore} {props : Props} {e : Element}
  {members : List Field} {bits : Nat}

theorem readBitfieldLength_eq_ok {n : Nat} : readBitfieldLength props bits = .ok n ↔
    (props.single "length" = .ok none ∧ n = min bitfieldLimit (max 1 ((bits + 7) / 8))) ∨
      ∃ s, props.single "length" = .ok (some s) ∧ Literal.int? s = some (n : Int) ∧ 1 ≤ n ∧
        n ≤ bitfieldLimit := by
  have hsmall : n ≤ bitfieldLimit → n < Literal.word64Limit := fun hle =>
    Nat.lt_of_le_of_lt hle (by decide)
  unfold readBitfieldLength
  rw [bind_eq_ok]
  constructor
  · rintro ⟨given, hgiven, h⟩
    cases given with
    | none =>
      cases h
      exact Or.inl ⟨parsed_eq_none.mp hgiven, rfl⟩
    | some m =>
      cases h
      obtain ⟨s, hs, hread⟩ := parsed_eq_some.mp hgiven
      obtain ⟨hword, hbounds⟩ := Option.filter_eq_some_iff.mp hread
      rw [Bool.and_eq_true, decide_eq_true_eq, decide_eq_true_eq] at hbounds
      exact Or.inr ⟨s, hs, (Literal.below?_eq_some.mp hword).1, hbounds⟩
  · rintro (⟨hnone, rfl⟩ | ⟨s, hs, hint, hpos, hle⟩)
    · exact ⟨none, parsed_eq_none.mpr hnone, rfl⟩
    · refine ⟨some n, parsed_eq_some.mpr ⟨s, hs, Option.filter_eq_some_iff.mpr ⟨?_, ?_⟩⟩, rfl⟩
      · exact Literal.below?_eq_some.mpr ⟨hint, hsmall hle⟩
      · simp [hpos, hle]

/-- The properties give a byte order: that of the schema, or one that is named once. -/
def GivesByteOrder (props : Props) : Prop :=
  props.single "endian" = .ok none ∨
    ∃ s endian, props.single "endian" = .ok (some s) ∧ Endian.ofText? s = some endian

theorem exists_readEndian_iff (ctx : Context) :
    (∃ endian, readEndian ctx props = .ok endian) ↔ GivesByteOrder props := by
  unfold readEndian Props.parsedD Props.parsed GivesByteOrder
  cases props.single "endian" with
  | error err => simp [Except.map]
  | ok given =>
    cases given with
    | none => simp [Except.map]
    | some s => cases hread : Endian.ofText? s <;> simp [hread, Except.map]

/-- A bitfield is read if its members are, they are of kinds that bitfields take, and they fill its
bytes. -/
theorem readBitfield_eq_ok {body : Body} :
    (readBitfield ctx nested core props e).result = .ok body ↔
      ∃ members length endian,
        (readFields nested (.ofBit core.window) "members" core.name e).result = .ok members ∧
        members ≠ [] ∧ (∀ m ∈ members, m.kind.isBitMember = true) ∧
        readBitfieldLength props (totalBits members) = .ok length ∧
        totalBits members = length * 8 ∧ readEndian ctx props = .ok endian ∧
        body = .bitfield endian length members := by
  unfold readBitfield
  rw [Pass.result_bind_eq_ok]
  refine exists_congr fun members => ?_
  by_cases hkinds : ∀ m ∈ members, m.kind.isBitMember = true
  · have hfind : members.find? (fun m => !m.kind.isBitMember) = none := by
      simpa using hkinds
    simp only [hfind, Pass.result_bind_eq_ok, Pass.result_liftM_eq_ok, Pass.result_require_eq_ok,
      Pass.result_pure]
    constructor
    · rintro ⟨hmembers, _, hne, length, hlength, _, hfill, endian, hendian, h⟩
      exact ⟨length, endian, hmembers, by simpa using hne, hkinds, hlength, beq_iff_eq.mp hfill,
        hendian, (Except.ok.inj h).symm⟩
    · rintro ⟨length, endian, hmembers, hne, -, hlength, hfill, hendian, rfl⟩
      exact ⟨hmembers, (), by simpa using hne, length, hlength, (), beq_iff_eq.mpr hfill, endian,
        hendian, rfl⟩
  · constructor
    · rintro ⟨-, h⟩
      obtain ⟨_, -, h⟩ := Pass.result_bind_eq_ok.mp h
      cases hfind : members.find? (fun m => !m.kind.isBitMember) with
      | none => exact absurd (by simpa using hfind) hkinds
      | some m =>
        simp only [hfind] at h
        obtain ⟨_, hfail, -⟩ := Pass.result_bind_eq_ok.mp h
        cases hfail
    · rintro ⟨_, _, -, -, hall, -⟩
      exact absurd hall hkinds

end

/-! ### Lengths in an arena -/

theorem Arena.lengths_of_bitfield (a : Arena) (core : FieldCore) (endian : Endian) (length : Nat)
    (members : List Field) :
    a.minLength (.mk core (.bitfield endian length members)) = length ∧
      a.maxLength (.mk core (.bitfield endian length members)) = length := by
  unfold minLength maxLength
  cases a.size with
  | zero => exact ⟨rfl, rfl⟩
  | succ hops => exact ⟨rfl, rfl⟩

/-! ### Acceptance -/

section
variable {ctx : Context} {levels : Nat} {core : FieldCore} {props : Props} {e : Element}
  {members : List Field}

/-- The bits that the members take together. -/
def memberBits (members : List Field) : Nat := (members.map Field.bitLength).sum

theorem ne_nil_of_memberBits (h : 0 < memberBits members) : members ≠ [] := by
  rintro rfl
  simp [memberBits] at h

section
variable (hmembers : (readFields (readField ctx levels) (.ofBit core.window) "members" core.name
    e).result = .ok members)
  (hkinds : ∀ m ∈ members, m.kind = .int ∨ m.kind = .enum ∨ m.kind = .set ∨ m.kind = .ref)

include hmembers hkinds

theorem exists_readBitfield_iff :
    (∃ body, (readBitfield ctx (readField ctx levels) core props e).result = .ok body) ↔
      GivesByteOrder props ∧ members ≠ [] ∧
        ∃ length, readBitfieldLength props (memberBits members) = .ok length ∧
          memberBits members = length * 8 := by
  rw [← exists_readEndian_iff ctx]
  simp only [readBitfield_eq_ok, totalBits_eq_sum]
  constructor
  · rintro ⟨_, ms, length, endian, hms, hne, -, hlength, hfill, hendian, -⟩
    obtain rfl : members = ms := Except.ok.inj (hmembers.symm.trans hms)
    exact ⟨⟨endian, hendian⟩, hne, length, hlength, hfill⟩
  · rintro ⟨⟨endian, hendian⟩, hne, length, hlength, hfill⟩
    have hbits (m : Field) (hm : m ∈ members) : m.kind.isBitMember = true := by
      simpa [FieldKind.isBitMember, or_assoc] using hkinds m hm
    exact ⟨_, members, length, endian, hmembers, hne, hbits, hlength, hfill, hendian, rfl⟩

theorem takesBits_members : ∀ m ∈ members, m.TakesBits := by
  have hread (e : Element) :
      (readField ctx levels (.ofBit core.window) e).Yields fun f =>
        f.kind.isBitMember = true → f.TakesBits :=
    takesBits_readField levels rfl
  intro m hm
  refine yields_readFields hread _ _ _ hmembers m hm ?_
  simpa [FieldKind.isBitMember, or_assoc] using hkinds m hm

theorem accepted_derived_iff (hnone : props.single "length" = .ok none) :
    (∃ body, (readBitfield ctx (readField ctx levels) core props e).result = .ok body) ↔
      GivesByteOrder props ∧ members ≠ [] ∧ 8 ∣ memberBits members ∧ 0 < memberBits members ∧
        memberBits members ≤ 64 := by
  have hlength {n : Nat} : readBitfieldLength props (memberBits members) = .ok n ↔
      n = min bitfieldLimit (max 1 ((memberBits members + 7) / 8)) := by
    rw [readBitfieldLength_eq_ok, hnone]
    simp
  rw [exists_readBitfield_iff hmembers hkinds, ← fills_derived_iff]
  simp only [hlength, exists_eq_left]

theorem accepted_declared_iff {s : String} (hs : props.single "length" = .ok (some s)) :
    (∃ body, (readBitfield ctx (readField ctx levels) core props e).result = .ok body) ↔
      GivesByteOrder props ∧ ∃ n : Int, Literal.int? s = some n ∧ 1 ≤ n ∧ n ≤ 8 ∧
        (memberBits members : Int) = 8 * n := by
  have hlength {n : Nat} : readBitfieldLength props (memberBits members) = .ok n ↔
      Literal.int? s = some (n : Int) ∧ 1 ≤ n ∧ n ≤ bitfieldLimit := by
    rw [readBitfieldLength_eq_ok, hs]
    simp
  rw [exists_readBitfield_iff hmembers hkinds]
  simp only [hlength, bitfieldLimit]
  constructor
  · rintro ⟨horder, -, n, ⟨hn, hpos, hle⟩, hfill⟩
    exact ⟨horder, n, hn, by omega, by omega, by omega⟩
  · rintro ⟨horder, n, hn, hpos, hle, hfill⟩
    lift n to Nat using by omega
    have hne : members ≠ [] := ne_nil_of_memberBits (by omega)
    exact ⟨horder, hne, n, ⟨hn, by omega, by omega⟩, by omega⟩

omit hkinds in
theorem eq_bitfield_of_read {body : Body}
    (h : (readBitfield ctx (readField ctx levels) core props e).result = .ok body) :
    ∃ endian length, body = .bitfield endian length members ∧
      length = memberBits members / 8 ∧ 1 ≤ length ∧ length ≤ 8 := by
  obtain ⟨ms, length, endian, hms, -, -, hlength, hfill, -, rfl⟩ := readBitfield_eq_ok.mp h
  obtain rfl : members = ms := Except.ok.inj (hmembers.symm.trans hms)
  have hbounds : 1 ≤ length ∧ length ≤ 8 := by
    rcases readBitfieldLength_eq_ok.mp hlength with ⟨-, rfl⟩ | ⟨_, -, -, hbounds⟩
    · unfold bitfieldLimit
      omega
    · exact hbounds
  have hbits : memberBits members = length * 8 := by
    rw [← hfill, totalBits_eq_sum, memberBits]
  exact ⟨endian, length, rfl, by omega, hbounds⟩

/-- **Bitfields consist of whole bytes.** Let the members of a bitfield be read, all of them
integers, enumerations, sets and references. A bitfield that names a byte order, if it names one, is
accepted without a declared length if and only if it has members and their bits are a positive
multiple of 8 up to 64, and with a declared length if and only if this is between 1 and 8 and the
bits fill it. A bitfield that is accepted has the length that its bits fill, between 1 and 8, and
takes this number of bytes on the wire; each member takes between 1 and 64 bits. -/
theorem bitfields_fill_bytes (props : Props) :
    (props.single "length" = .ok none →
      ((∃ body, (readBitfield ctx (readField ctx levels) core props e).result = .ok body) ↔
        GivesByteOrder props ∧ members ≠ [] ∧ 8 ∣ memberBits members ∧ 0 < memberBits members ∧
          memberBits members ≤ 64)) ∧
    (∀ s, props.single "length" = .ok (some s) →
      ((∃ body, (readBitfield ctx (readField ctx levels) core props e).result = .ok body) ↔
        GivesByteOrder props ∧ ∃ n : Int, Literal.int? s = some n ∧ 1 ≤ n ∧ n ≤ 8 ∧
          (memberBits members : Int) = 8 * n)) ∧
    ∀ body, (readBitfield ctx (readField ctx levels) core props e).result = .ok body →
      ∃ endian length, body = .bitfield endian length members ∧
        length = memberBits members / 8 ∧ 1 ≤ length ∧ length ≤ 8 ∧
        (∀ m ∈ members, 1 ≤ m.bitLength ∧ m.bitLength ≤ 64) ∧
        ∀ (a : Arena) (core : FieldCore),
          a.minLength (.mk core body) = length ∧ a.maxLength (.mk core body) = length := by
  refine ⟨fun hnone => accepted_derived_iff hmembers hkinds hnone,
    fun s hs => accepted_declared_iff hmembers hkinds hs, fun body hbody => ?_⟩
  obtain ⟨endian, length, rfl, hlength, hpos, hle⟩ := eq_bitfield_of_read hmembers hbody
  have hbits := takesBits_members hmembers hkinds
  exact ⟨endian, length, rfl, hlength, hpos, hle, hbits,
    fun a core => a.lengths_of_bitfield core endian length members⟩

end

/-- A bitfield with an integer of three bits and a set of five. -/
def flagBits (attrs : List (String × String)) : Element :=
  ⟨"bitfield", ("name", "B") :: attrs,
    [⟨"int", [("name", "a"), ("type", "uint8"), ("bitLength", "3")], [], "", 2⟩,
      ⟨"set", [("name", "s"), ("type", "uint8"), ("bitLength", "5")], [], "", 3⟩], "", 1⟩

/-- The properties of the bitfield. -/
def flagProps (attrs : List (String × String)) : Props :=
  (flagBits attrs).props FieldKind.bitfield.properties

/-- The core of the bitfield. -/
def flagCore : FieldCore := ⟨"B", "", "", .always, "B", .none, 1⟩

theorem exists_members_flagBits (attrs : List (String × String)) :
    ∃ members, (readFields (readField ⟨[], 0, .little, ""⟩ 1) (.ofBit flagCore.window) "members"
        flagCore.name (flagBits attrs)).result = .ok members ∧
      (∀ m ∈ members, m.kind = .int ∨ m.kind = .enum ∨ m.kind = .set ∨ m.kind = .ref) ∧
      memberBits members = 8 := by
  -- the members do not depend on the properties of the bitfield
  change ∃ members, (readFields (readField ⟨[], 0, .little, ""⟩ 1) (.ofBit flagCore.window)
    "members" flagCore.name (flagBits [])).result = .ok members ∧ _
  have heval : (readFields (readField ⟨[], 0, .little, ""⟩ 1) (.ofBit flagCore.window) "members"
      flagCore.name (flagBits [])).result.toOption.map
        (fun ms => (ms.map Field.kind, memberBits ms)) = some ([.int, .set], 8) := by
    decide +kernel
  obtain ⟨members, hread, heval⟩ := Option.map_eq_some_iff.mp heval
  obtain ⟨hkinds, hbits⟩ := Prod.mk.inj heval
  refine ⟨members, toOption_eq_some.mp hread, fun m hm => ?_, hbits⟩
  have hkind : m.kind ∈ members.map Field.kind := List.mem_map_of_mem hm
  rw [hkinds] at hkind
  simp at hkind
  tauto

theorem flagBits_take_one_byte : ∃ body,
    (readBitfield ⟨[], 0, .little, ""⟩ (readField ⟨[], 0, .little, ""⟩ 1) flagCore (flagProps [])
        (flagBits [])).result = .ok body ∧
      ∀ (a : Arena) (core : FieldCore),
        a.minLength (.mk core body) = 1 ∧ a.maxLength (.mk core body) = 1 := by
  obtain ⟨members, hmembers, hkinds, hbits⟩ := exists_members_flagBits []
  obtain ⟨hderived, -, haccepted⟩ := bitfields_fill_bytes hmembers hkinds (flagProps [])
  have hsome : GivesByteOrder (flagProps []) := Or.inl rfl
  have hne : members ≠ [] := ne_nil_of_memberBits (by omega)
  obtain ⟨body, hbody⟩ := (hderived rfl).mpr ⟨hsome, hne, by omega, by omega, by omega⟩
  obtain ⟨endian, length, -, hlength, -, -, -, hlengths⟩ := haccepted body hbody
  rw [hbits] at hlength
  subst hlength
  exact ⟨body, hbody, hlengths⟩

/-- Members that fill a byte are not enough: the byte order has to be one as well. -/
theorem flagBits_refused_byte_order : ∃ members,
    (readFields (readField ⟨[], 0, .little, ""⟩ 1) (.ofBit flagCore.window) "members" flagCore.name
        (flagBits [("endian", "middle")])).result = .ok members ∧
      (∀ m ∈ members, m.kind = .int ∨ m.kind = .enum ∨ m.kind = .set ∨ m.kind = .ref) ∧
      (flagProps [("endian", "middle")]).single "length" = .ok none ∧ memberBits members = 8 ∧
      ¬ ∃ body, (readBitfield ⟨[], 0, .little, ""⟩ (readField ⟨[], 0, .little, ""⟩ 1) flagCore
        (flagProps [("endian", "middle")]) (flagBits [("endian", "middle")])).result =
          .ok body := by
  obtain ⟨members, hmembers, hkinds, hbits⟩ := exists_members_flagBits [("endian", "middle")]
  refine ⟨members, hmembers, hkinds, rfl, hbits, fun haccepted => ?_⟩
  obtain ⟨horder, -⟩ := (exists_readBitfield_iff hmembers hkinds).mp haccepted
  have hsingle : (flagProps [("endian", "middle")]).single "endian" = .ok (some "middle") := by
    decide
  rcases horder with hnone | ⟨s, endian, hs, hread⟩
  · rw [hsingle] at hnone
    cases hnone
  · obtain rfl : "middle" = s := Option.some.inj (Except.ok.inj (hsingle.symm.trans hs))
    have hunread : Endian.ofText? "middle" = none := by decide
    rw [hunread] at hread
    cases hread

end

end WireSchema
