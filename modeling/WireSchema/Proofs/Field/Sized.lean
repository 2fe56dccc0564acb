import WireSchema.Field.Length
import WireSchema.Proofs.Field.Declared
import WireSchema.Proofs.Field.Inside

/-! # Declared lengths

The lengths that fields declare are those of their types at most, or fit into 64 bits, and an
integer has at least one byte (`sized_readBody`). Binding references and completing fields do not
change declared lengths (`sized_mapRefs_iff`, `sized_complete_iff`). -/

namespace WireSchema

open Markup

/-- The length that the body declares is a length, and that of an integer is not zero. -/
def Body.Sized : Body → Prop
  | .int i => 1 ≤ i.length ∧ i.length ≤ unbounded
  | .enum x => x.length ≤ unbounded
  | .set s => s.length ≤ unbounded
  | .bitfield _ length _ => length ≤ unbounded
  | .string s => ∀ n, s.length = some n → n ≤ unbounded
  | .data d => ∀ n, d.length = some n → n ≤ unbounded
  | _ => True

/-! ### What is read -/

theorem le_unbounded_of_word64? {s : String} {n : Nat} (h : Literal.word64? s = some n) :
    n ≤ unbounded :=
  Nat.le_sub_one_of_lt (Literal.below?_lt h)

theorem IntType.maxLength_bounds (t : IntType) : 1 ≤ t.maxLength ∧ t.maxLength ≤ unbounded := by
  cases t <;> decide

theorem IntType.maxLength_le_of_fixed {t : IntType} (h : t.isVariable = false) :
    t.maxLength ≤ 8 := by
  cases t with
  | intvar | uintvar => simp [isVariable] at h
  | _ => decide

section
variable {ctx : Context} {core : FieldCore} {pos : Position} {props : Props} {e : Element}

theorem bounds_of_readTypeLength {type : IntType} {n : Nat}
    (h : readTypeLength props core type = .ok n) : 1 ≤ n ∧ n ≤ type.maxLength := by
  unfold readTypeLength at h
  obtain ⟨given, -, h⟩ := bind_eq_ok.mp h
  cases given with
  | none =>
    cases h
    exact ⟨type.maxLength_bounds.1, Nat.le_refl _⟩
  | some m =>
    dsimp only at h
    split_ifs at h with hbad
    · simp [throw, throwThe, MonadExceptOf.throw] at h
    · cases h
      simp only [Bool.or_eq_true, beq_iff_eq, decide_eq_true_eq, not_or] at hbad
      omega

theorem le_unbounded_of_parsed {key : String} {read : String → Option Nat} {length : Option Nat}
    (hread : ∀ s n, read s = some n → n ≤ unbounded) (h : props.parsed key read = .ok length) :
    ∀ n, length = some n → n ≤ unbounded := by
  rintro n rfl
  obtain ⟨s, -, hs⟩ := parsed_eq_some.mp h
  exact hread s n hs

theorem le_unbounded_of_readFixedLength {length : Option Nat}
    (h : readFixedLength props = .ok length) : ∀ n, length = some n → n ≤ unbounded :=
  le_unbounded_of_parsed
    (fun _ _ hs => le_unbounded_of_word64? (Option.filter_eq_some_iff.mp hs).1) h

theorem sized_readString (f : StringField) (h : readString core props e = .ok f) :
    (Body.string f).Sized := by
  obtain ⟨length, hlength, h⟩ := bind_eq_ok.mp h
  obtain ⟨_, -, h⟩ := bind_eq_ok.mp h
  obtain ⟨_, -, h⟩ := bind_eq_ok.mp h
  obtain ⟨_, -, h⟩ := bind_eq_ok.mp h
  obtain ⟨_, -, h⟩ := bind_eq_ok.mp h
  obtain ⟨_, -, h⟩ := bind_eq_ok.mp h
  obtain ⟨_, -, h⟩ := bind_eq_ok.mp h
  cases h
  exact le_unbounded_of_readFixedLength hlength

theorem sized_readData (f : DataField) (h : readData core props e = .ok f) :
    (Body.data f).Sized := by
  obtain ⟨length, hlength, h⟩ := bind_eq_ok.mp h
  obtain ⟨_, -, h⟩ := bind_eq_ok.mp h
  obtain ⟨_, -, h⟩ := bind_eq_ok.mp h
  obtain ⟨_, -, h⟩ := bind_eq_ok.mp h
  obtain ⟨_, -, h⟩ := bind_eq_ok.mp h
  cases h
  exact le_unbounded_of_readFixedLength hlength

theorem sized_readInt : (readInt ctx core pos props e).Yields fun f => (Body.int f).Sized := by
  refine (yields_readInt ctx core pos props e).imp fun f h => ?_
  obtain ⟨hpos, hle⟩ := bounds_of_readTypeLength h.length
  exact ⟨hpos, Nat.le_trans hle f.type.maxLength_bounds.2⟩

theorem sized_readEnum : (readEnum ctx core pos props e).Yields fun f => (Body.enum f).Sized :=
  (yields_readEnum ctx core pos props e).imp fun f h =>
    Nat.le_trans (bounds_of_readTypeLength h.length).2 f.type.maxLength_bounds.2

theorem bounds_of_unsignedType? {n : Nat} {t : IntType} (h : unsignedType? n = some t) :
    1 ≤ n ∧ n ≤ t.maxLength := by
  unfold unsignedType? at h
  split_ifs at h
  all_goals
    cases h
    simp only [IntType.maxLength]
    omega

theorem bounds_of_readSetType {type : Option IntType} {length : Option Nat} {r : IntType × Nat}
    (h : readSetType core type length = .ok r) : 1 ≤ r.2 ∧ r.2 ≤ r.1.maxLength := by
  unfold readSetType at h
  split at h
  · cases h
    exact ⟨(IntType.maxLength_bounds _).1, Nat.le_refl _⟩
  · split_ifs at h with hfits
    cases h
    simp only [Bool.and_eq_true, bne_iff_ne, decide_eq_true_eq] at hfits
    exact ⟨Nat.one_le_iff_ne_zero.mpr hfits.1, hfits.2⟩
  · split at h
    · rename_i hunsigned
      cases h
      exact bounds_of_unsignedType? hunsigned
    · cases h
  · cases h

theorem sized_readSet : (readSet ctx core pos props e).Yields fun f => (Body.set f).Sized := by
  refine (yields_readSet ctx core pos props e).imp fun f h => ?_
  obtain ⟨type, length, -, hread⟩ := h.length
  exact Nat.le_trans (bounds_of_readSetType hread).2 f.type.maxLength_bounds.2

theorem le_unbounded_of_readBitfieldLength {bits n : Nat}
    (h : readBitfieldLength props bits = .ok n) : n ≤ unbounded := by
  have hlimit : bitfieldLimit ≤ unbounded := by decide
  obtain ⟨given, hgiven, h⟩ := bind_eq_ok.mp h
  cases given with
  | none =>
    cases h
    omega
  | some m =>
    cases h
    refine le_unbounded_of_parsed (fun s n hs => ?_) hgiven n rfl
    exact le_unbounded_of_word64? (Option.filter_eq_some_iff.mp hs).1

theorem sized_readBitfield {nested : NestedReader} :
    (readBitfield ctx nested core props e).Yields Body.Sized := by
  have hlength {bits n : Nat} (h : readBitfieldLength props bits = .ok n) :=
    le_unbounded_of_readBitfieldLength h
  unfold readBitfield
  refine Pass.yields_bind fun members => Pass.yields_bind fun _ => ?_
  split
  · refine Pass.yields_bind fun _ => (Pass.yields_liftM fun n h => hlength h).bind fun n hn => ?_
    exact Pass.yields_bind fun _ => Pass.yields_bind fun _ => Pass.yields_pure hn
  · refine (Pass.yields_liftM fun n h => hlength h).bind fun n hn => ?_
    exact Pass.yields_bind fun _ => Pass.yields_bind fun _ => Pass.yields_pure hn

end

/-- **Every body that is read declares a length.** -/
theorem sized_readBody (ctx : Context) (nested : NestedReader) (kind : FieldKind)
    (core : FieldCore) (pos : Position) (props : Props) (e : Element) :
    (readBody ctx nested kind core pos props e).Yields Body.Sized := by
  have hkind (k : FieldKind) (hk : k = .bundle ∨ k = .variant ∨ k = .list ∨ k = .ref) :
      (readBody ctx nested k core pos props e).Yields Body.Sized := by
    have hinner : nested.GivesIn core.window fun _ => True := fun _ _ _ _ _ => trivial
    refine (yields_inner_readBody hinner k).imp fun body h => ?_
    rw [← h.1] at hk
    cases body <;> simp [Body.kind, Body.Sized] at hk ⊢
  cases kind with
  | int => exact Pass.yields_map sized_readInt
  | enum => exact Pass.yields_map sized_readEnum
  | set => exact Pass.yields_map sized_readSet
  | bitfield => exact sized_readBitfield
  | string => exact Pass.yields_map (Pass.yields_ofExcept sized_readString)
  | data => exact Pass.yields_map (Pass.yields_ofExcept sized_readData)
  | float | optional => exact Pass.yields_map fun _ _ => trivial
  | bundle | variant | list | ref => exact hkind _ (by decide)

/-! ### Linking -/

theorem sized_mapRefs_iff (g : FieldRef → FieldRef) (f : Field) :
    (f.mapRefs g).body.Sized ↔ f.body.Sized := by
  obtain ⟨core, body⟩ := f
  cases body with
  | list element count c l el fixed =>
    cases element <;> simp [Field.mapRefs, Field.body, Body.Sized]
  | _ => simp [Field.mapRefs, Field.body, Body.Sized]

theorem sized_complete_iff (a : Arena) (f : Field) :
    (f.complete a).1.body.Sized ↔ f.body.Sized := by
  obtain ⟨core, body⟩ := f
  cases body with
  | list element count c l el fixed =>
    cases element <;> simp [Field.complete, Field.body, Body.Sized]
  | _ => simp [Field.complete, Field.body, Body.Sized]

end WireSchema
