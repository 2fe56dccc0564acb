import WireSchema.Proofs.Field.Serialisable
import WireSchema.Proofs.Namespace.Reuse
import WireSchema.Session

/-! # Which integers are warned about

An accepted integer is warned about for each value that the wire cannot carry, if it is written in
the declaration or supplied by the type as the other bound of a valid range
(`warnings_about_unserialisable_values`). So the warnings may be about values that nobody wrote: an
integer of variable length has at most nine groups of seven bits, fewer than its type, and cannot be
given a least value without a warning (`warning_about_supplied_bound`). -/

namespace WireSchema

open Markup

/-- The finding is a warning about a value that the wire cannot carry. -/
def Finding.reportsUnserialisable (n : Finding) : Bool :=
  match n.cause with
  | .warning (.notSerialisable ..) => true
  | _ => false

section
variable {ctx : Context} {core : FieldCore} {pos : Position} {props : Props} {e m : Element}
  {f : IntField} {n : Finding} {levels : Nat}

theorem Context.tag_of_merge (h : ctx.merge e = .ok m) : m.tag = e.tag := by
  obtain ⟨kind, -, rfl | ⟨base, -, -, rfl⟩⟩ := merge_eq_ok h
  · rfl
  · rfl

theorem mem_filterMap_unserialisable? {xs : List (String × Int)} :
    n ∈ xs.filterMap (f.unserialisable? core) ↔
      ∃ what v, (what, v) ∈ xs ∧ f.wireRange.contains v = false ∧
        n = f.unserialisable core what v := by
  rw [List.mem_filterMap]
  unfold IntField.unserialisable?
  constructor
  · rintro ⟨⟨what, v⟩, hmem, h⟩
    split_ifs at h with hwire
    exact ⟨what, v, hmem, Bool.eq_false_of_not_eq_true hwire, (Option.some.inj h).symm⟩
  · rintro ⟨what, v, hmem, hwire, rfl⟩
    refine ⟨(what, v), hmem, ?_⟩
    dsimp only
    rw [hwire]
    rfl

theorem findings_readBitLength {varies : Bool} {limit bits : Nat} {fs : List Finding}
    (h : (readBitLength props core pos varies limit).Leaves fs bits) :
    fs = [] ∨ fs = [⟨core.line, .warning (.bitLengthIgnored core.name)⟩] := by
  unfold readBitLength at h
  obtain ⟨-, h⟩ := Pass.leaves_require_bind.mp h
  obtain ⟨given, -, h⟩ := Pass.leaves_liftM_bind.mp h
  cases given with
  | none => exact Or.inl (Pass.leaves_pure.mp h).2
  | some s =>
    dsimp only at h
    split_ifs at h
    · obtain ⟨_, fs₁, fs₂, ⟨-, hwarn⟩, hpure, hfs⟩ := Pass.leaves_bind.mp h
      rw [hfs, ← hwarn, (Pass.leaves_pure.mp hpure).2]
      exact Or.inr rfl
    · split at h
      · exact absurd h Pass.not_leaves_fail
      · split_ifs at h
        · exact absurd h Pass.not_leaves_fail
        · exact Or.inl (Pass.leaves_pure.mp h).2

theorem not_reportsUnserialisable_of_unknownParts {names tags : List String}
    (h : n ∈ (Pass.warnAll (unknownParts e props names tags)).findings) :
    n.reportsUnserialisable = false := by
  obtain ⟨w, hw, rfl⟩ := List.mem_map.mp h
  rcases List.mem_append.mp hw with hw | hw
  · obtain ⟨key, -, rfl⟩ := List.mem_map.mp hw
    rfl
  · obtain ⟨c, -, rfl⟩ := List.mem_map.mp hw
    rfl

theorem leaves_readMerged_int {nested : NestedReader} {field : Field} {fs : List Finding}
    (htag : e.tag = FieldKind.int.tag) (h : (readMerged ctx nested pos e).Leaves fs field) :
    ∃ f fs₁ fs₂, field = .mk field.core (.int f) ∧ fs = fs₁ ++ fs₂ ∧
      (readInt ctx field.core pos (e.props FieldKind.int.properties) e).Leaves fs₁ f ∧
      ∀ n ∈ fs₂, n.reportsUnserialisable = false := by
  unfold readMerged at h
  rw [htag, FieldKind.ofTag?_tag] at h
  obtain ⟨core, -, h⟩ := Pass.leaves_liftM_bind.mp h
  obtain ⟨body, fs₁, fs₂, hbody, h, hfs⟩ := Pass.leaves_bind.mp h
  obtain ⟨-, h⟩ := Pass.leaves_require_bind.mp h
  obtain ⟨_, fs₃, fs₄, ⟨-, hwarn⟩, h, hfs₂⟩ := Pass.leaves_bind.mp h
  obtain ⟨rfl, hfs₄⟩ := Pass.leaves_pure.mp h
  obtain ⟨f, hf, rfl⟩ := Pass.leaves_map.mp hbody
  refine ⟨f, fs₁, fs₂, rfl, hfs, hf, fun n hn => ?_⟩
  rw [hfs₂, hfs₄, List.append_nil, ← hwarn] at hn
  exact not_reportsUnserialisable_of_unknownParts hn

/-- **Of an accepted integer**: the warnings about values are those about values that are
checked. -/
theorem mem_findings_readField_iff {field : Field} (htag : e.tag = FieldKind.int.tag)
    (h : (readField ctx levels pos e).result = .ok field) :
    ∃ m f, ctx.merge e = .ok m ∧ field = .mk field.core (.int f) ∧
      (readInt ctx field.core pos (m.props FieldKind.int.properties) m).result = .ok f ∧
      ∀ n, n.reportsUnserialisable = true → (n ∈ (readField ctx levels pos e).findings ↔
        n ∈ (f.checkedValues (m.props FieldKind.int.properties)).filterMap
          (f.unserialisable? field.core)) := by
  cases levels with
  | zero => cases h
  | succ levels =>
    obtain ⟨m, hmerge, hread⟩ := Pass.leaves_liftM_bind.mp (Pass.leaves_of_ok h)
    have hm : m.tag = FieldKind.int.tag := (Context.tag_of_merge hmerge).trans htag
    obtain ⟨f, fs₁, fs₂, hfield, hfs, hint, hothers⟩ := leaves_readMerged_int hm hread
    have hbits := (yields_readInt ctx field.core pos _ m f hint.1).bits
    refine ⟨m, f, hmerge, hfield, hint.1, fun n hn => ?_⟩
    have hall : (readField ctx (levels + 1) pos e).findings = fs₁ ++ fs₂ := hfs
    have hbitLength : ∀ n ∈ (readBitLength (m.props FieldKind.int.properties) field.core pos
        f.type.isVariable (f.length * 8)).findings, n.reportsUnserialisable = false := by
      intro n hn
      rcases findings_readBitLength ⟨hbits, rfl⟩ with hnone | hignored
      · rw [hnone] at hn
        exact absurd hn List.not_mem_nil
      · rw [hignored, List.mem_singleton] at hn
        rw [hn]
        rfl
    rw [hall, findings_readInt hint, List.mem_append, List.mem_append]
    constructor
    · rintro ((hmem | hmem) | hmem)
      · exact absurd hn (Bool.not_eq_true _ ▸ hbitLength n hmem)
      · exact hmem
      · exact absurd hn (Bool.not_eq_true _ ▸ hothers n hmem)
    · exact fun hmem => Or.inl (Or.inr hmem)

/-- What the findings of an integer say about values that the wire cannot carry. -/
structure IntField.Reported (core : FieldCore) (props : Props) (e : Element) (f : IntField)
    (found : List Finding) : Prop where
  /-- Each warning is about a value that is written, or that the type supplies. -/
  about : ∀ n ∈ found, n.reportsUnserialisable = true → ∃ what v,
    n = f.unserialisable core what v ∧ f.wireRange.contains v = false ∧
      (f.Writes props e v ∨ f.Supplies props v)
  /-- There is a warning about each of these values that the wire cannot carry. -/
  each : ∀ v, f.Writes props e v ∨ f.Supplies props v → f.wireRange.contains v = false →
    ∃ what, f.unserialisable core what v ∈ found
  /-- A warning means that some written value cannot be carried if and only if all values that the
  type supplies can be carried, or some written one cannot either. -/
  written_iff :
    ((∃ n ∈ found, n.reportsUnserialisable = true) →
      ∃ v, f.Writes props e v ∧ f.wireRange.contains v = false) ↔
    (∀ v, f.Supplies props v → f.wireRange.contains v = true) ∨
      ∃ v, f.Writes props e v ∧ f.wireRange.contains v = false

/-- **What an accepted integer is warned about**: the values that the wire cannot carry, of those
that are written in its declaration and those that the type supplies as the other bounds of valid
ranges. -/
theorem warnings_about_unserialisable_values {field : Field} (htag : e.tag = FieldKind.int.tag)
    (h : (readField ctx levels pos e).result = .ok field) :
    ∃ m f, ctx.merge e = .ok m ∧ field = .mk field.core (.int f) ∧
      f.Reported field.core (m.props FieldKind.int.properties) m
        (readField ctx levels pos e).findings := by
  obtain ⟨m, f, hmerge, hfield, hint, hiff⟩ := mem_findings_readField_iff htag h
  have hchecked := checked_of_readInt ctx field.core pos _ m (Pass.endsWith_false.mpr hint)
  have habout : ∀ n ∈ (readField ctx levels pos e).findings, n.reportsUnserialisable = true →
      ∃ what v, n = f.unserialisable field.core what v ∧ f.wireRange.contains v = false ∧
        (f.Writes (m.props FieldKind.int.properties) m v ∨
          f.Supplies (m.props FieldKind.int.properties) v) := by
    intro n hn hreports
    obtain ⟨what, v, hmem, hwire, rfl⟩ :=
      mem_filterMap_unserialisable?.mp ((hiff n hreports).mp hn)
    exact ⟨what, v, rfl, hwire, (exists_mem_checkedValues_iff hchecked).mp ⟨what, hmem⟩⟩
  have heach : ∀ v, f.Writes (m.props FieldKind.int.properties) m v ∨
      f.Supplies (m.props FieldKind.int.properties) v → f.wireRange.contains v = false →
      ∃ what, f.unserialisable field.core what v ∈ (readField ctx levels pos e).findings := by
    intro v hv hwire
    obtain ⟨what, hmem⟩ := (exists_mem_checkedValues_iff hchecked).mpr hv
    refine ⟨what, (hiff _ rfl).mpr ?_⟩
    exact mem_filterMap_unserialisable?.mpr ⟨what, v, hmem, hwire, rfl⟩
  refine ⟨m, f, hmerge, hfield, habout, heach, fun hclaim => ?_, fun hcan => ?_⟩
  · refine or_iff_not_imp_right.mpr fun hwritten v hv => ?_
    by_contra hwire
    obtain ⟨what, hmem⟩ := heach v (Or.inr hv) (Bool.eq_false_of_not_eq_true hwire)
    exact hwritten (hclaim ⟨_, hmem, rfl⟩)
  · rintro ⟨n, hn, hreports⟩
    rcases hcan with hcan | hwritten
    · obtain ⟨what, v, -, hwire, hv | hv⟩ := habout n hn hreports
      · exact ⟨v, hv, hwire⟩
      · rw [hcan v hv] at hwire
        cases hwire
    · exact hwritten

end

/-- An integer of variable length that is at least 1. -/
def openInteger : Element :=
  ⟨"int", [("name", "x"), ("type", "uintvar"), ("validMin", "1")], [], "", 1⟩

/-- Reads the integer. -/
def readOpenInteger : Pass Field := readField ⟨[], 0, .little, ""⟩ 1 .inNamespace openInteger

theorem openInteger_eq : openInteger.tag = FieldKind.int.tag := rfl

theorem exists_readOpenInteger : ∃ field, readOpenInteger.result = .ok field ∧
    ∀ f, field = .mk field.core (.int f) →
      f.typeRange.hi = 18446744073709551615 ∧ f.wireRange = ⟨0, 9223372036854775807⟩ ∧
        f.valueOf? "1" = some 1 := by
  have heval : readOpenInteger.result.toOption.map (fun f =>
      (f.int?.map fun i => (i.typeRange.hi, i.wireRange, i.valueOf? "1"))) =
      some (some (18446744073709551615, ⟨0, 9223372036854775807⟩, some 1)) := by
    decide +kernel
  obtain ⟨field, hread, heval⟩ := Option.map_eq_some_iff.mp heval
  refine ⟨field, toOption_eq_some.mp hread, fun f hf => ?_⟩
  rw [hf] at heval
  simpa [Field.int?, Field.body] using heval

/-- The other bound of its valid range is more than the wire can carry. -/
theorem warning_about_openInteger :
    ∃ (field : Field) (f : IntField) (what : String), readOpenInteger.result = .ok field ∧
      f.unserialisable field.core what 18446744073709551615 ∈ readOpenInteger.findings := by
  obtain ⟨field, hread, hvalues⟩ := exists_readOpenInteger
  obtain ⟨m, f, hmerge, hfield, hreported⟩ :=
    warnings_about_unserialisable_values openInteger_eq hread
  obtain rfl : openInteger = m := Except.ok.inj hmerge
  obtain ⟨hhi, hwire, -⟩ := hvalues f hfield
  have hsupplied : f.Supplies (openInteger.props FieldKind.int.properties) f.typeRange.hi :=
    .greatest (s := "1") (by decide)
  rw [hhi] at hsupplied
  have hout : f.wireRange.contains 18446744073709551615 = false := by
    rw [hwire]
    decide
  obtain ⟨what, hmem⟩ := hreported.each _ (Or.inr hsupplied) hout
  exact ⟨field, f, what, hread, hmem⟩

/-- **A warning about a value that nobody wrote.** The only value that is written in the integer can
be carried by the wire, and there is a warning all the same. Where warnings are errors, a document
with nothing else in it is refused. -/
theorem warning_about_supplied_bound :
    (∃ (field : Field) (f : IntField), readOpenInteger.result = .ok field ∧
      field = .mk field.core (.int f) ∧
      (∃ n ∈ readOpenInteger.findings, n.reportsUnserialisable = true) ∧
      ∀ v, f.Writes (openInteger.props FieldKind.int.properties) openInteger v →
        f.wireRange.contains v = true) ∧
    ((Session.start ⟨none, 0, none, true⟩).parse
      "<schema name=\"P\"><int name=\"x\" type=\"uintvar\" validMin=\"1\"/></schema>").2 = false ∧
    ((Session.start ⟨none, 0, none, true⟩).parse
      "<schema name=\"P\"><int name=\"x\" type=\"uintvar\"/></schema>").2 = true := by
  refine ⟨?_, by decide +kernel, by decide +kernel⟩
  obtain ⟨field, hread, hvalues⟩ := exists_readOpenInteger
  obtain ⟨m, f, -, hfield, -⟩ := mem_findings_readField_iff openInteger_eq hread
  obtain ⟨-, hwire, hone⟩ := hvalues f hfield
  have hwarned : readOpenInteger.findings.any (·.reportsUnserialisable) = true := by decide +kernel
  refine ⟨field, f, hread, hfield, List.any_eq_true.mp hwarned, fun v hv => ?_⟩
  suffices v = 1 by
    rw [this, hwire]
    decide
  cases hv with
  | @default s v hs hv =>
    have hnone : (openInteger.props FieldKind.int.properties).single "defaultValue" = .ok none := by
      decide
    rw [hnone] at hs
    cases hs
  | special hc hv => exact absurd hc List.not_mem_nil
  | @range s lo hi v hs hbounds hv =>
    have hnone : (openInteger.props FieldKind.int.properties).all "validRange" = [] := by decide
    rw [hnone] at hs
    exact absurd hs List.not_mem_nil
  | @bound key s v hkey hs hv =>
    have hall : ∀ key ∈ ["validValue", "validMin", "validMax"],
        ∀ s ∈ (openInteger.props FieldKind.int.properties).all key, s = "1" := by decide
    rw [hall key hkey s hs, hone] at hv
    exact (Option.some.inj hv).symm

end WireSchema
