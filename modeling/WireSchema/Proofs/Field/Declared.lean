import Mathlib.Data.List.Nodup
import Mathlib.Tactic.SplitIfs
import WireSchema.Field.Declaration
import WireSchema.Proofs.Finding.Ending
import WireSchema.Proofs.Finding.Yield

/-! # What integers, enumerations and sets are read from

Function by function: where the length, the bits and the named values come from that an integer, an
enumeration or a set is read with (`yields_readInt`, `yields_readEnum`, `yields_readSet`), and what
has been checked of the values of an integer or enumeration and of the bits of a set
(`checked_of_readInt`, `checked_of_readEnum`, `checked_of_readSet`). The values of an enumeration
and the bits of a set are those that its element declares, in their order (`ListsDeclared`). What is
known of these parts holds of the field. -/

namespace WireSchema

open Markup

section
variable {α : Type} {props : Props} {key : String} {read : String → Option α}

theorem parsed_eq_none : props.parsed key read = .ok none ↔ props.single key = .ok none := by
  unfold Props.parsed
  cases hgiven : props.single key with
  | error err => simp
  | ok given =>
    cases given with
    | none => simp
    | some s => cases hread : read s <;> simp [hread]

theorem parsedD_eq_ok {absent a : α} : props.parsedD key read absent = .ok a ↔
    ∃ given, props.parsed key read = .ok given ∧ given.getD absent = a := by
  unfold Props.parsedD
  cases props.parsed key read <;> simp [Except.map]

theorem parsed_eq_some {a : α} : props.parsed key read = .ok (some a) ↔
    ∃ s, props.single key = .ok (some s) ∧ read s = some a := by
  unfold Props.parsed
  cases hgiven : props.single key with
  | error err => simp
  | ok given =>
    cases given with
    | none => simp
    | some s => cases hread : read s <;> simp [hread]

end

/-! ### Named items -/

section
variable {α β κ : Type} {read : Element → Option β} {entry : α → β} {name : α → String}
  {key : α → κ} {shared : Bool} {declared : List Element} {e : Element} {xs : List α} {x : α}

/-- The items are those that elements declare, in their order. They have different names, and
different keys as well unless keys may be shared. -/
structure ListsDeclared (read : Element → Option β) (entry : α → β) (name : α → String)
    (key : α → κ) (shared : Bool) (declared : List Element) (xs : List α) : Prop where
  entries : declared.map read = xs.map fun x => some (entry x)
  names : (xs.map name).Nodup
  keys : shared = false → (xs.map key).Nodup

theorem nodup_map_append_singleton {f : α → κ} (h : (xs.map f).Nodup) (hx : f x ∉ xs.map f) :
    ((xs ++ [x]).map f).Nodup := by
  rw [List.map_append, List.map_singleton]
  exact List.nodup_append.mpr ⟨h, List.nodup_singleton _, fun a ha b hb heq => by
    rw [heq, List.mem_singleton.mp hb] at ha
    exact hx ha⟩

theorem ListsDeclared.nil : ListsDeclared read entry name key shared [] [] :=
  ⟨rfl, List.nodup_nil, fun _ => List.nodup_nil⟩

theorem ListsDeclared.append (h : ListsDeclared read entry name key shared declared xs)
    (hread : read e = some (entry x)) (hname : name x ∉ xs.map name)
    (hkey : shared = false → key x ∉ xs.map key) :
    ListsDeclared read entry name key shared (declared ++ [e]) (xs ++ [x]) where
  entries := by
    rw [List.map_append, List.map_append, h.entries, List.map_singleton, List.map_singleton, hread]
  names := nodup_map_append_singleton h.names hname
  keys hshared := nodup_map_append_singleton (h.keys hshared) (hkey hshared)

/-- Nothing that is declared is left out. -/
theorem ListsDeclared.filterMap_eq (h : ListsDeclared read entry name key shared declared xs) :
    declared.filterMap read = xs.map entry := by
  simpa [List.filterMap_map, Function.comp_def] using congrArg (List.filterMap id) h.entries

theorem ListsDeclared.isSome_read (h : ListsDeclared read entry name key shared declared xs) :
    ∀ c ∈ declared, (read c).isSome = true := by
  intro c hc
  have hread : read c ∈ declared.map read := List.mem_map_of_mem hc
  rw [h.entries] at hread
  obtain ⟨x, -, hx⟩ := List.mem_map.mp hread
  rw [← hx]
  rfl

end

/-! ### What is read -/

theorem unsigned_of_unsignedType? {n : Nat} {t : IntType} (h : unsignedType? n = some t) :
    t.isSigned = false ∧ t.isVariable = false := by
  unfold unsignedType? at h
  split_ifs at h
  all_goals
    cases h
    exact ⟨rfl, rfl⟩

theorem unsigned_of_readSetType {core : FieldCore} {type : Option IntType} {length : Option Nat}
    {r : IntType × Nat} (htype : ∀ t, type = some t → t.isSigned = false ∧ t.isVariable = false)
    (h : readSetType core type length = .ok r) :
    r.1.isSigned = false ∧ r.1.isVariable = false := by
  unfold readSetType at h
  split at h
  · cases h
    exact htype _ rfl
  · split_ifs at h
    cases h
    exact htype _ rfl
  · split at h
    · rename_i hunsigned
      cases h
      exact unsigned_of_unsignedType? hunsigned
    · cases h
  · cases h

section
variable (ctx : Context) (core : FieldCore) (pos : Position) (props : Props) (e : Element)

/-- Where the length, the bits and the special values of an integer come from. -/
structure IntField.ReadFrom (f : IntField) : Prop where
  length : readTypeLength props core f.type = .ok f.length
  bits : (readBitLength props core pos f.type.isVariable (f.length * 8)).result = .ok f.bitLength
  specials : readSpecials ctx core Literal.int? e = .ok f.specials

/-- Where the length, the bits and the values of an enumeration come from; its type does not vary in
length. -/
structure EnumField.ReadFrom (f : EnumField) : Prop where
  fixed : f.type.isVariable = false
  length : readTypeLength props core f.type = .ok f.length
  bits : (readBitLength props core pos false (f.length * 8)).result = .ok f.bitLength
  values : ∀ v ∈ f.values, ∃ g child, (readEnumValue ctx core g child).result = .ok v

/-- Where the length, the bits and the named bits of a set come from; its type does not vary in
length. -/
structure SetField.ReadFrom (f : SetField) : Prop where
  fixed : f.type.isVariable = false
  length : ∃ type length, props.parsed "length" Literal.word64? = .ok length ∧
    readSetType core type length = .ok (f.type, f.length)
  bits : (readBitLength props core pos false (f.length * 8)).result = .ok f.bitLength
  named : ∀ b ∈ f.bits, ∃ g child, readSetBit ctx core g child = .ok b

/-- The check of a value lets it pass, without a warning if it is to be quiet. -/
def Admits (type wire : Interval) (quiet : Prop) (v : Int) : Prop :=
  type.contains v = true ∧ (quiet → wire.contains v = true)

theorem endsWith_checkValue {quiet : Prop} {what : String} {v : Int} {type wire : Interval}
    {u : Unit} :
    (checkValue core what v type wire).EndsWith quiet u ↔ Admits type wire quiet v := by
  unfold checkValue Admits
  by_cases htype : type.contains v = true
  · by_cases hwire : wire.contains v = true
    · simp [htype, hwire]
    · simp [htype, hwire]
  · simp [htype]

theorem endsWith_checkRange {quiet : Prop} {type wire r : Interval} {u : Unit} :
    (checkRange core type wire r).EndsWith quiet u ↔
      r.lo ≤ r.hi ∧ Admits type wire quiet r.lo ∧ Admits type wire quiet r.hi := by
  simp [checkRange, Pass.endsWith_bind, endsWith_checkValue]

theorem IntField.wireRange_eq {f : IntField} {wire : Interval}
    (h : f.offsetRange? = some wire) : f.wireRange = wire := by
  rw [wireRange, h, Option.getD_some]

/-- What has been checked of an integer: its offset, its special values, its default value if it is
declared, and its valid ranges. -/
structure IntField.Checked (quiet : Prop) (f : IntField) : Prop
    extends IntField.ReadFrom ctx core pos props e f where
  offset : ∃ wire, f.offsetRange? = some wire
  special : ∀ s ∈ f.specials, Admits f.typeRange f.wireRange quiet s.value
  default : (props.single "defaultValue" = .ok none ∧ f.defaultValue = 0) ∨
    ∃ s, props.single "defaultValue" = .ok (some s) ∧ f.valueOf? s = some f.defaultValue ∧
      Admits f.typeRange f.wireRange quiet f.defaultValue
  ranges : ∃ rs, readRanges props f.valueOf? f.typeRange.lo f.typeRange.hi = .ok rs ∧
    f.validRanges = rs.map fun r => ⟨r.1, r.2⟩
  bounds : ∀ r ∈ f.validRanges, r.lo ≤ r.hi ∧ Admits f.typeRange f.wireRange quiet r.lo ∧
    Admits f.typeRange f.wireRange quiet r.hi

/-- What is read of an integer after its default value. -/
theorem endsWith_readRanges {quiet : Prop} {field f : IntField} {wire : Interval} {v : Int}
    (h : (do
      let ranges ← liftM (readRanges props field.valueOf? field.typeRange.lo field.typeRange.hi)
      let ranges := ranges.map fun r => (⟨r.1, r.2⟩ : Interval)
      ranges.forM (checkRange core field.typeRange wire)
      return { field with defaultValue := v, validRanges := ranges } :
        Pass IntField).EndsWith quiet f) :
    ∃ rs, readRanges props field.valueOf? field.typeRange.lo field.typeRange.hi = .ok rs ∧
      (∀ r ∈ f.validRanges, r.lo ≤ r.hi ∧ Admits field.typeRange wire quiet r.lo ∧
        Admits field.typeRange wire quiet r.hi) ∧
      f = { field with defaultValue := v, validRanges := rs.map fun r => ⟨r.1, r.2⟩ } := by
  obtain ⟨rs, hrs, h⟩ := Pass.endsWith_bind.mp h
  obtain ⟨_, hbounds, h⟩ := Pass.endsWith_bind.mp h
  rw [Pass.endsWith_liftM] at hrs
  obtain rfl := Pass.endsWith_pure.mp h
  refine ⟨rs, hrs, fun r hr => ?_, rfl⟩
  exact (endsWith_checkRange core).mp (Pass.endsWith_forM.mp hbounds r hr)

theorem checked_of_readInt {quiet : Prop} {f : IntField}
    (h : (readInt ctx core pos props e).EndsWith quiet f) :
    IntField.Checked ctx core pos props e quiet f := by
  unfold readInt at h
  obtain ⟨rawType, -, h⟩ := Pass.endsWith_bind.mp h
  split at h
  · obtain ⟨length, hlength, h⟩ := Pass.endsWith_bind.mp h
    obtain ⟨bitLength, ⟨hbits, -⟩, h⟩ := Pass.endsWith_bind.mp h
    obtain ⟨serOffset, -, h⟩ := Pass.endsWith_bind.mp h
    obtain ⟨scaling, -, h⟩ := Pass.endsWith_bind.mp h
    obtain ⟨decimals, -, h⟩ := Pass.endsWith_bind.mp h
    obtain ⟨endian, -, h⟩ := Pass.endsWith_bind.mp h
    obtain ⟨units, -, h⟩ := Pass.endsWith_bind.mp h
    obtain ⟨specials, hspecials, h⟩ := Pass.endsWith_bind.mp h
    rw [Pass.endsWith_liftM] at hlength hspecials
    dsimp only at h
    split at h
    · rename_i wire hwire
      obtain ⟨_, hspecial, h⟩ := Pass.endsWith_bind.mp h
      obtain ⟨given, hgiven, h⟩ := Pass.endsWith_bind.mp h
      rw [Pass.endsWith_forM] at hspecial
      rw [Pass.endsWith_liftM] at hgiven
      -- the range on the wire does not depend on what is read from here on
      obtain rfl := IntField.wireRange_eq hwire
      cases given with
      | none =>
        obtain ⟨v, hv, h⟩ := Pass.endsWith_bind.mp h
        obtain rfl := Pass.endsWith_pure.mp hv
        obtain ⟨rs, hrs, hbounds, rfl⟩ := endsWith_readRanges core props h
        exact ⟨⟨hlength, hbits, hspecials⟩, ⟨_, hwire⟩,
          fun s hs => (endsWith_checkValue core).mp (hspecial s hs),
          Or.inl ⟨parsed_eq_none.mp hgiven, rfl⟩, ⟨rs, hrs, rfl⟩, hbounds⟩
      | some v =>
        obtain ⟨_, hcheck, h⟩ := Pass.endsWith_bind.mp h
        obtain ⟨_, hv, h⟩ := Pass.endsWith_bind.mp h
        obtain rfl := Pass.endsWith_pure.mp hv
        obtain ⟨rs, hrs, hbounds, rfl⟩ := endsWith_readRanges core props h
        obtain ⟨s, hs, hread⟩ := parsed_eq_some.mp hgiven
        exact ⟨⟨hlength, hbits, hspecials⟩, ⟨_, hwire⟩,
          fun s hs => (endsWith_checkValue core).mp (hspecial s hs),
          Or.inr ⟨s, hs, hread, (endsWith_checkValue core).mp hcheck⟩, ⟨rs, hrs, rfl⟩, hbounds⟩
    · exact absurd h Pass.not_endsWith_fail
  · exact absurd h Pass.not_endsWith_fail

theorem yields_readInt :
    (readInt ctx core pos props e).Yields (IntField.ReadFrom ctx core pos props e) :=
  fun _ h => (checked_of_readInt ctx core pos props e (Pass.endsWith_false.mpr h)).toReadFrom

/-- The number that the element of a special value or of a value gives. -/
def GivesValue (e : Element) (v : Int) : Prop :=
  ∃ s, (e.props ["description", "displayName"]).required "val" = .ok s ∧ Literal.int? s = some v

theorem readSpecial_ok {α : Type} {read : String → Option α} {known : List (Special α)}
    {v : Special α} (h : readSpecial ctx core read known e = .ok v) :
    (∃ s, (e.props ["description", "displayName"]).required "val" = .ok s ∧
      read s = some v.value) ∧
    Window.read v.name (e.props ["description", "displayName"]) core.window ctx.schemaVersion =
      .ok v.window := by
  unfold readSpecial at h
  obtain ⟨name, -, h⟩ := bind_eq_ok.mp h
  obtain ⟨_, -, h⟩ := bind_eq_ok.mp h
  dsimp only at h
  split at h
  · exact absurd h throw_bind_ne_ok
  · obtain ⟨raw, hraw, h⟩ := bind_eq_ok.mp h
    split at h
    · rename_i value hvalue
      obtain ⟨window, hwindow, h⟩ := bind_eq_ok.mp h
      obtain ⟨description, -, h⟩ := bind_eq_ok.mp h
      obtain ⟨displayName, -, h⟩ := bind_eq_ok.mp h
      cases h
      exact ⟨⟨raw, hraw, hvalue⟩, hwindow⟩
    · cases h

/-- The name that the element of a special value, a value or a bit gives. -/
def DeclaresName (e : Element) (name : String) : Prop :=
  (e.props ["description", "displayName"]).required "name" = .ok name

/-- The enumeration `f`, which has the values before it, takes the value of an element: it has a
name of its own, and a number of its own unless the enumeration allows numbers to be shared. -/
structure EnumField.Takes (quiet : Prop) (f : EnumField) (v : Special Int) : Prop where
  name : DeclaresName e v.name
  number : GivesValue e v.value
  fresh : f.value? v.name = none
  unshared : f.nonUniqueAllowed = false → f.namesOf v.value = []
  admits : Admits f.typeRange f.wireRange quiet v.value
  window : Window.read v.name (e.props ["description", "displayName"]) core.window
    ctx.schemaVersion = .ok v.window

theorem takes_of_readEnumValue {quiet : Prop} {f : EnumField} {v : Special Int}
    (h : (readEnumValue ctx core f e).EndsWith quiet v) :
    EnumField.Takes ctx core e quiet f v := by
  unfold readEnumValue at h
  obtain ⟨name, hname, h⟩ := Pass.endsWith_bind.mp h
  obtain ⟨_, -, h⟩ := Pass.endsWith_bind.mp h
  obtain ⟨_, hfresh, h⟩ := Pass.endsWith_bind.mp h
  obtain ⟨raw, hraw, h⟩ := Pass.endsWith_bind.mp h
  rw [Pass.endsWith_liftM] at hname hraw
  rw [Pass.endsWith_require, Option.isNone_iff_eq_none] at hfresh
  split at h
  · rename_i value hvalue
    obtain ⟨_, hcheck, h⟩ := Pass.endsWith_bind.mp h
    extract_lets rest at h
    have hrest (u : Unit) (hu : (rest u).EndsWith quiet v) : v.name = name ∧ v.value = value ∧
        Window.read v.name (e.props ["description", "displayName"]) core.window
          ctx.schemaVersion = .ok v.window := by
      obtain ⟨window, hwindow, hu⟩ := Pass.endsWith_bind.mp hu
      obtain ⟨_, -, hu⟩ := Pass.endsWith_bind.mp hu
      obtain ⟨_, -, hu⟩ := Pass.endsWith_bind.mp hu
      obtain rfl := Pass.endsWith_pure.mp hu
      exact ⟨rfl, rfl, Pass.endsWith_liftM.mp hwindow⟩
    -- a name that the number has already ends the reading, or it goes on as without
    have hv : (∃ u, (rest u).EndsWith quiet v) ∧
        (f.nonUniqueAllowed = false → f.namesOf value = []) := by
      split at h
      · rename_i hshared
        exact ⟨⟨(), h⟩, fun hnot => absurd (hshared.symm.trans hnot) Bool.true_eq_false.mp⟩
      · split at h
        · obtain ⟨_, hfail, -⟩ := Pass.endsWith_bind.mp h
          exact absurd hfail Pass.not_endsWith_fail
        · rename_i hunused
          exact ⟨⟨(), h⟩, fun _ => hunused⟩
    obtain ⟨⟨u, hu⟩, hunshared⟩ := hv
    obtain ⟨rfl, rfl, hwindow⟩ := hrest u hu
    exact ⟨hname, ⟨raw, hraw, hvalue⟩, hfresh, hunshared, (endsWith_checkValue core).mp hcheck,
      hwindow⟩
  · exact absurd h Pass.not_endsWith_fail

/-- The name and the number that the element of a value declares. -/
def declaredValue? (e : Element) : Option (String × Int) :=
  let props := e.props ["description", "displayName"]
  match props.required "name", props.required "val" with
  | .ok name, .ok raw => (Literal.int? raw).map fun v => (name, v)
  | _, _ => none

theorem EnumField.Takes.declaredValue?_eq {quiet : Prop} {f : EnumField} {v : Special Int}
    (h : EnumField.Takes ctx core e quiet f v) : declaredValue? e = some (v.name, v.value) := by
  obtain ⟨raw, hraw, hvalue⟩ := h.number
  have hname := h.name
  unfold DeclaresName at hname
  unfold declaredValue?
  simp [hname, hraw, hvalue]

/-- The values of the enumeration are those that elements declare. -/
abbrev EnumField.Lists (f : EnumField) (declared : List Element) : Prop :=
  ListsDeclared declaredValue? (fun v : Special Int => (v.name, v.value)) Special.name
    Special.value f.nonUniqueAllowed declared f.values

theorem EnumField.Lists.step {quiet : Prop} {done : List Element} {f : EnumField}
    {v : Special Int} (h : f.Lists done) (hv : EnumField.Takes ctx core e quiet f v) :
    { f with values := f.values ++ [v] }.Lists (done ++ [e]) := by
  refine h.append hv.declaredValue?_eq ?_ fun hunshared => ?_
  · have hfresh := List.find?_eq_none.mp hv.fresh
    simpa using hfresh
  · have hnone := hv.unshared hunshared
    simpa [EnumField.namesOf, List.filter_eq_nil_iff] using hnone

/-- What has been checked of an enumeration with the values of some elements, before its default
value is read. -/
structure EnumField.ValuesChecked (quiet : Prop) (done : List Element) (f : EnumField) : Prop
    extends EnumField.ReadFrom ctx core pos props f where
  zero : f.defaultValue = 0
  permitted : readFlag props "nonUniqueAllowed" = .ok f.nonUniqueAllowed
  lists : f.Lists done
  value : ∀ v ∈ f.values, Admits f.typeRange f.wireRange quiet v.value
  declared : ∀ c ∈ done, ∃ v ∈ f.values, GivesValue c v.value

/-- One more value leaves the type, the length and the bits as they are, and so the ranges. -/
theorem EnumField.ValuesChecked.step {quiet : Prop} {done : List Element} {f : EnumField}
    {v : Special Int} (h : EnumField.ValuesChecked ctx core pos props quiet done f)
    (hv : (readEnumValue ctx core f e).EndsWith quiet v) :
    EnumField.ValuesChecked ctx core pos props quiet (done ++ [e])
      { f with values := f.values ++ [v] } := by
  have htakes := takes_of_readEnumValue ctx core e hv
  refine ⟨⟨h.fixed, h.length, h.bits, ?_⟩, h.zero, h.permitted, h.lists.step ctx core e htakes, ?_,
    ?_⟩
  · exact List.forall_mem_append.mpr ⟨h.values, List.forall_mem_singleton.mpr ⟨f, e, hv.1⟩⟩
  · exact List.forall_mem_append.mpr ⟨h.value, List.forall_mem_singleton.mpr htakes.admits⟩
  · refine List.forall_mem_append.mpr ⟨fun c hc => ?_, List.forall_mem_singleton.mpr ?_⟩
    · obtain ⟨w, hw, hgives⟩ := h.declared c hc
      exact ⟨w, List.mem_append_left _ hw, hgives⟩
    · exact ⟨v, List.mem_append_right _ List.mem_cons_self, htakes.number⟩

/-- What has been checked of an enumeration: its values, which are the declared ones, and its
default value if it is declared. -/
structure EnumField.Checked (quiet : Prop) (f : EnumField) : Prop
    extends EnumField.ReadFrom ctx core pos props f where
  permitted : readFlag props "nonUniqueAllowed" = .ok f.nonUniqueAllowed
  lists : f.Lists (e.childrenNamed "validValue")
  value : ∀ v ∈ f.values, Admits f.typeRange f.wireRange quiet v.value
  declared : ∀ c ∈ e.childrenNamed "validValue", ∃ v ∈ f.values, GivesValue c v.value
  default : (props.single "defaultValue" = .ok none ∧ f.defaultValue = 0) ∨
    ∃ s, props.single "defaultValue" = .ok (some s) ∧
      readEnumDefault core f s = .ok f.defaultValue ∧
      Admits f.typeRange f.wireRange quiet f.defaultValue

theorem checked_of_readEnum {quiet : Prop} {f : EnumField}
    (h : (readEnum ctx core pos props e).EndsWith quiet f) :
    EnumField.Checked ctx core pos props e quiet f := by
  unfold readEnum at h
  obtain ⟨rawType, -, h⟩ := Pass.endsWith_bind.mp h
  split at h
  · rename_i type htype
    have hfixed : type.isVariable = false := by
      simpa using (Option.filter_eq_some_iff.mp htype).2
    obtain ⟨length, hlength, h⟩ := Pass.endsWith_bind.mp h
    obtain ⟨endian, -, h⟩ := Pass.endsWith_bind.mp h
    obtain ⟨bitLength, ⟨hbits, -⟩, h⟩ := Pass.endsWith_bind.mp h
    obtain ⟨nonUniqueAllowed, hpermitted, h⟩ := Pass.endsWith_bind.mp h
    obtain ⟨_, -, h⟩ := Pass.endsWith_bind.mp h
    obtain ⟨_, -, h⟩ := Pass.endsWith_bind.mp h
    obtain ⟨field, hfield, h⟩ := Pass.endsWith_bind.mp h
    obtain ⟨_, -, h⟩ := Pass.endsWith_bind.mp h
    obtain ⟨given, hgiven, h⟩ := Pass.endsWith_bind.mp h
    rw [Pass.endsWith_liftM] at hlength hpermitted hgiven
    have hvalues : EnumField.ValuesChecked ctx core pos props quiet
        (e.childrenNamed "validValue") field := by
      refine hfield.foldlM (Q := EnumField.ValuesChecked ctx core pos props quiet)
        ⟨⟨hfixed, hlength, hbits, fun v hv => absurd hv List.not_mem_nil⟩, rfl, hpermitted,
          .nil, fun v hv => absurd hv List.not_mem_nil, fun c hc => absurd hc List.not_mem_nil⟩
        fun done f c f' hf hstep => ?_
      obtain ⟨v, hv, hstep⟩ := Pass.endsWith_bind.mp hstep
      obtain rfl := Pass.endsWith_pure.mp hstep
      exact hf.step ctx core pos props c hv
    cases given with
    | none =>
      obtain rfl := Pass.endsWith_pure.mp h
      exact ⟨hvalues.toReadFrom, hvalues.permitted, hvalues.lists, hvalues.value, hvalues.declared,
        Or.inl ⟨hgiven, hvalues.zero⟩⟩
    | some s =>
      obtain ⟨v, hv, h⟩ := Pass.endsWith_bind.mp h
      obtain ⟨_, hcheck, h⟩ := Pass.endsWith_bind.mp h
      obtain rfl := Pass.endsWith_pure.mp h
      rw [Pass.endsWith_liftM] at hv
      exact ⟨⟨hvalues.fixed, hvalues.length, hvalues.bits, hvalues.values⟩, hvalues.permitted,
        hvalues.lists, hvalues.value, hvalues.declared,
        Or.inr ⟨s, hgiven, hv, (endsWith_checkValue core).mp hcheck⟩⟩
  · exact absurd h Pass.not_endsWith_fail

theorem yields_readEnum :
    (readEnum ctx core pos props e).Yields (EnumField.ReadFrom ctx core pos props) :=
  fun _ h => (checked_of_readEnum ctx core pos props e (Pass.endsWith_false.mpr h)).toReadFrom

/-- The set `f`, which has the bits before it, takes the bit of an element: it has a name of its
own, an index below the number of bits, and an index of its own unless the set allows them to be
shared. -/
structure SetField.Takes (f : SetField) (b : SetBit) : Prop where
  name : DeclaresName e b.name
  index : ∃ s, (e.props ["description", "displayName"]).required "idx" = .ok s ∧
    Literal.word64? s = some b.idx
  reserved : readFlag (e.props ["description", "displayName"]) "reserved" = .ok b.reserved
  fresh : f.bit? b.name = none
  below : b.idx < f.bitLength
  unshared : f.nonUniqueAllowed = false → f.bits.find? (·.idx == b.idx) = none
  window : Window.read b.name (e.props ["description", "displayName"]) core.window
    ctx.schemaVersion = .ok b.window

theorem takes_of_readSetBit {f : SetField} {b : SetBit} (h : readSetBit ctx core f e = .ok b) :
    SetField.Takes ctx core e f b := by
  unfold readSetBit at h
  obtain ⟨name, hname, h⟩ := bind_eq_ok.mp h
  obtain ⟨_, -, h⟩ := bind_eq_ok.mp h
  extract_lets afterName at h
  split at h
  · exact absurd h throw_bind_ne_ok
  · rename_i hknown
    rw [Bool.not_eq_true, Option.isSome_eq_false_iff, Option.isNone_iff_eq_none] at hknown
    obtain ⟨raw, hraw, h⟩ := bind_eq_ok.mp h
    split at h
    · rename_i idx hidx
      extract_lets rest afterIndex at h
      have hrest (u : Unit) (hu : rest u = .ok b) : b.name = name ∧ b.idx = idx ∧
          readFlag (e.props ["description", "displayName"]) "reserved" = .ok b.reserved ∧
          Window.read b.name (e.props ["description", "displayName"]) core.window
            ctx.schemaVersion = .ok b.window := by
        obtain ⟨_, -, hu⟩ := bind_eq_ok.mp hu
        obtain ⟨reserved, hreserved, hu⟩ := bind_eq_ok.mp hu
        obtain ⟨window, hwindow, hu⟩ := bind_eq_ok.mp hu
        obtain ⟨_, -, hu⟩ := bind_eq_ok.mp hu
        obtain ⟨_, -, hu⟩ := bind_eq_ok.mp hu
        cases hu
        exact ⟨rfl, rfl, hreserved, hwindow⟩
      split at h
      · exact absurd h throw_bind_ne_ok
      · rename_i hbelow
        -- a bit that has the index already ends the reading, or it goes on as without
        have hb : (∃ u, rest u = .ok b) ∧
            (f.nonUniqueAllowed = false → f.bits.find? (·.idx == idx) = none) := by
          change (if f.nonUniqueAllowed = true then _ else _) = _ at h
          split at h
          · rename_i hshared
            exact ⟨⟨(), h⟩, fun hnot => absurd (hshared.symm.trans hnot) Bool.true_eq_false.mp⟩
          · split at h
            · exact absurd h throw_bind_ne_ok
            · rename_i hunused
              exact ⟨⟨(), h⟩, fun _ => Option.eq_none_iff_forall_ne_some.mpr hunused⟩
        obtain ⟨⟨u, hu⟩, hunshared⟩ := hb
        obtain ⟨rfl, rfl, hreserved, hwindow⟩ := hrest u hu
        exact ⟨hname, ⟨raw, hraw, hidx⟩, hreserved, hknown, Nat.lt_of_not_le hbelow, hunshared,
          hwindow⟩
    · cases h

/-- The name, the index and the mark as reserved that the element of a bit declares. -/
def declaredBit? (e : Element) : Option (String × Nat × Bool) :=
  let props := e.props ["description", "displayName"]
  match props.required "name", props.required "idx", readFlag props "reserved" with
  | .ok name, .ok raw, .ok reserved => (Literal.word64? raw).map fun idx => (name, idx, reserved)
  | _, _, _ => none

theorem SetField.Takes.declaredBit?_eq {f : SetField} {b : SetBit}
    (h : SetField.Takes ctx core e f b) : declaredBit? e = some (b.name, b.idx, b.reserved) := by
  obtain ⟨raw, hraw, hidx⟩ := h.index
  have hname := h.name
  unfold DeclaresName at hname
  unfold declaredBit?
  simp [hname, hraw, hidx, h.reserved]

/-- The bits of the set are those that elements declare. -/
abbrev SetField.Lists (f : SetField) (declared : List Element) : Prop :=
  ListsDeclared declaredBit? (fun b : SetBit => (b.name, b.idx, b.reserved)) SetBit.name
    SetBit.idx f.nonUniqueAllowed declared f.bits

theorem SetField.Lists.step {done : List Element} {f : SetField} {b : SetBit} (h : f.Lists done)
    (hb : SetField.Takes ctx core e f b) :
    { f with bits := f.bits ++ [b] }.Lists (done ++ [e]) := by
  refine h.append hb.declaredBit?_eq ?_ fun hunshared => ?_
  · have hfresh := List.find?_eq_none.mp hb.fresh
    simpa using hfresh
  · have hnone := List.find?_eq_none.mp (hb.unshared hunshared)
    simpa using hnone

/-- What has been checked of a set with the bits of some elements. -/
structure SetField.Checked (done : List Element) (f : SetField) : Prop
    extends SetField.ReadFrom ctx core pos props f where
  unsigned : f.type.isSigned = false
  permitted : readFlag props "nonUniqueAllowed" = .ok f.nonUniqueAllowed
  lists : f.Lists done
  below : ∀ b ∈ f.bits, b.idx < f.bitLength

/-- One more bit leaves the length and the bits as they are. -/
theorem SetField.Checked.step {done : List Element} {f : SetField} {b : SetBit}
    (h : SetField.Checked ctx core pos props done f) (hb : readSetBit ctx core f e = .ok b) :
    SetField.Checked ctx core pos props (done ++ [e]) { f with bits := f.bits ++ [b] } := by
  have htakes := takes_of_readSetBit ctx core e hb
  refine ⟨⟨h.fixed, h.length, h.bits, ?_⟩, h.unsigned, h.permitted,
    h.lists.step ctx core e htakes, ?_⟩
  · exact List.forall_mem_append.mpr ⟨h.named, List.forall_mem_singleton.mpr ⟨f, e, hb⟩⟩
  · exact List.forall_mem_append.mpr ⟨h.below, List.forall_mem_singleton.mpr htakes.below⟩

theorem checked_of_readSet {f : SetField} (h : (readSet ctx core pos props e).result = .ok f) :
    SetField.Checked ctx core pos props (e.childrenNamed "bit") f := by
  rw [← Pass.endsWith_false] at h
  unfold readSet at h
  obtain ⟨type, htype, h⟩ := Pass.endsWith_bind.mp h
  obtain ⟨length, hlength, h⟩ := Pass.endsWith_bind.mp h
  obtain ⟨r, hr, h⟩ := Pass.endsWith_bind.mp h
  obtain ⟨endian, -, h⟩ := Pass.endsWith_bind.mp h
  obtain ⟨bitLength, ⟨hbits, -⟩, h⟩ := Pass.endsWith_bind.mp h
  obtain ⟨_, -, h⟩ := Pass.endsWith_bind.mp h
  obtain ⟨_, -, h⟩ := Pass.endsWith_bind.mp h
  obtain ⟨nonUniqueAllowed, hpermitted, h⟩ := Pass.endsWith_bind.mp h
  obtain ⟨_, -, h⟩ := Pass.endsWith_bind.mp h
  rw [Pass.endsWith_liftM] at htype hlength hr hpermitted
  have hdeclared (t : IntType) (ht : type = some t) :
      t.isSigned = false ∧ t.isVariable = false := by
    subst ht
    obtain ⟨s, -, hs⟩ := parsed_eq_some.mp htype
    simpa using (Option.filter_eq_some_iff.mp hs).2
  obtain ⟨hunsigned, hfixed⟩ := unsigned_of_readSetType hdeclared hr
  refine h.foldlM (Q := SetField.Checked ctx core pos props)
    ⟨⟨hfixed, ⟨type, length, hlength, hr⟩, hbits, fun b hb => absurd hb List.not_mem_nil⟩,
      hunsigned, hpermitted, .nil, fun b hb => absurd hb List.not_mem_nil⟩
    fun done f child f' hf hstep => ?_
  obtain ⟨b, hb, hstep⟩ := Pass.endsWith_bind.mp hstep
  obtain rfl := Pass.endsWith_pure.mp hstep
  exact hf.step ctx core pos props child (Pass.endsWith_liftM.mp hb)

theorem yields_readSet :
    (readSet ctx core pos props e).Yields (SetField.ReadFrom ctx core pos props) :=
  fun _ h => (checked_of_readSet ctx core pos props e h).toReadFrom

end

end WireSchema
