import Mathlib.Data.List.Forall2
import WireSchema.Proofs.Field.Alike
import WireSchema.Proofs.Field.Reading

/-! # What stands inside of alike declarations

A reference that a declaration holds itself has the line of the declaration (`Body.atLine`), and the
fields inside are read by the same reader, or by one that reads each of them as well. Then the
bodies of alike declarations are the same but for these lines (`Alike.carries_readBody`). -/

namespace WireSchema

open Markup

/-! ### Lines of references -/

/-- The reference, declared in the line. -/
def FieldRef.atLine (line : Nat) (r : FieldRef) : FieldRef := { r with line }

/-- The prefix, declared in the line unless it is a field. -/
def Prefix.atLine (line : Nat) : Prefix → Prefix
  | .inline f => .inline f
  | .named p => .named (p.mapRefs (.atLine line))

/-- The part, declared in the line unless it is a field. -/
def Part.atLine (line : Nat) : Part → Part
  | .inline f => .inline f
  | .reference r => .reference (r.atLine line)

/-- The body of a declaration in the line: the references that it holds itself are declared there,
those in the fields inside of it are left alone. -/
def Body.atLine (line : Nat) : Body → Body
  | .string f => .string { f with lengthPrefix := f.lengthPrefix.map (·.mapRefs (.atLine line)) }
  | .data f => .data { f with lengthPrefix := f.lengthPrefix.map (·.mapRefs (.atLine line)) }
  | .list element count countPrefix lengthPrefix elemLengthPrefix fixed =>
    .list (element.atLine line) count (countPrefix.map (·.atLine line))
      (lengthPrefix.map (·.atLine line)) (elemLengthPrefix.map (·.atLine line)) fixed
  | .ref target bitLength => .ref (target.atLine line) bitLength
  | .optional f => .optional { f with field := f.field.atLine line }
  | body => body

theorem carries_readRef (path : String) (line line' : Nat) :
    Carries (fun r r' => r' = r.atLine line') (readRef path line) (readRef path line') := by
  unfold readRef
  split_ifs
  · exact carries_ok rfl
  · exact carries_error _ _

theorem carries_readPrefixName (key value : String) (line line' : Nat) :
    Carries (fun p p' => p' = p.mapRefs (.atLine line')) (readPrefixName key value line)
      (readPrefixName key value line') := by
  unfold readPrefixName
  split
  · split_ifs
    · exact carries_ok rfl
    · exact carries_error _ _
  · exact carries_map ((carries_readRef value line line').imp fun r r' hr => hr ▸ rfl)

namespace Alike

variable {ctx ctx' : Context} {core core' : FieldCore} {props props' : Props} {e e' : Element}
  {pos : Position}

/-! ### Texts, octets and references -/

section references
variable (h : Alike ctx ctx' core core' props props' e e')
include h

theorem carries_readLengthPrefix :
    Carries (fun p p' => p' = p.map (·.mapRefs (.atLine core'.line)))
      (readLengthPrefix core props e) (readLengthPrefix core' props' e') := by
  have hinline : (e'.children.any fun c => c.tag == "lengthPrefix" && !c.children.isEmpty) =
      e.children.any fun c => c.tag == "lengthPrefix" && !c.children.isEmpty := by
    have hnamed := h.childrenNamed "lengthPrefix" (by decide) (by decide)
    unfold Element.childrenNamed at hnamed
    rw [← List.any_filter, ← List.any_filter, hnamed]
  unfold readLengthPrefix
  rw [hinline, h.single "lengthPrefix" (by decide) (by decide)]
  split
  · exact carries_throwBind
  · refine carries_bind fun named => ?_
    cases named with
    | none => exact carries_ok rfl
    | some value =>
      refine (carries_readPrefixName _ value e.line e'.line).bind fun p p' hp => carries_ok ?_
      rw [hp, h.line']
      rfl

omit h in
theorem carries_checkSizing (length : Option Nat) (suffix : Bool) {source : Option PrefixName}
    (g : FieldRef → FieldRef) :
    Carries Eq (checkSizing core length source suffix)
      (checkSizing core' length (source.map (·.mapRefs g)) suffix) := by
  unfold checkSizing
  cases length <;> cases source <;> cases suffix <;>
    first | exact carries_rfl _ | exact carries_error _ _

omit h in
theorem carries_checkDefaultSize (length : Option Nat) (size : Nat) :
    Carries Eq (checkDefaultSize core length size) (checkDefaultSize core' length size) := by
  unfold checkDefaultSize
  cases length with
  | none => exact carries_rfl _
  | some n =>
    dsimp only
    split_ifs
    · exact carries_error _ _
    · exact carries_rfl _

theorem carries_readString :
    Carries (fun f f' => Body.string f' = (Body.string f).atLine core'.line)
      (readString core props e) (readString core' props' e') := by
  unfold readString readFixedLength
  simp (disch := decide) only [h.parsed, h.readFlag, h.textOf, h.single]
  refine carries_bind fun length => carries_bind fun suffix => ?_
  refine h.carries_readLengthPrefix.bind fun p p' hp => ?_
  subst hp
  refine (carries_checkSizing length suffix _).bindEq fun _ => carries_bind fun value => ?_
  refine (carries_checkDefaultSize _ _).bindEq fun _ => carries_bind fun encoding => ?_
  exact carries_ok rfl

theorem carries_readData :
    Carries (fun f f' => Body.data f' = (Body.data f).atLine core'.line)
      (readData core props e) (readData core' props' e') := by
  unfold readData readFixedLength
  simp (disch := decide) only [h.parsed, h.parsedD]
  refine carries_bind fun length => h.carries_readLengthPrefix.bind fun p p' hp => ?_
  subst hp
  refine (carries_checkSizing length false _).bindEq fun _ => carries_bind fun value => ?_
  exact (carries_checkDefaultSize _ _).bindEq fun _ => carries_ok rfl

theorem carries_readReference :
    Carries (fun b b' => b' = b.atLine core'.line) (readReference core pos props).result
      (readReference core' pos props').result := by
  unfold readReference
  rw [h.required "field" (by decide) (by decide), h.single "bitLength" (by decide) (by decide)]
  refine carries_passBind fun path => ?_
  refine (carries_liftM (carries_readRef path _ _)).passBind fun r r' hr => ?_
  subst hr
  refine carries_passBind fun given => ?_
  cases given with
  | none => exact carries_passBind fun _ => carries_ok rfl
  | some s =>
    dsimp only
    split_ifs
    · cases (Literal.word64? s).filter fun n => 1 ≤ n && n ≤ 64 with
      | none => exact carries_fail _ _
      | some n => exact carries_ok rfl
    · exact carries_ok rfl

theorem carries_readOptional :
    Carries (fun f f' => Body.optional f' = (Body.optional f).atLine core'.line)
      (readOptional core props) (readOptional core' props') := by
  unfold readOptional
  simp (disch := decide) only [h.required, h.parsed, h.parsedD, h.readFlag]
  refine carries_bind fun path => (carries_readRef path _ _).bind fun r r' hr => ?_
  subst hr
  exact carries_bind fun _ => carries_bind fun _ => carries_bind fun _ => carries_ok rfl

end references

end Alike

/-! ### Members -/

/-- The readings that give the fields, one each in order. -/
def NestedReader.Reads (nested : NestedReader) (pos : Position) (es : List Element)
    (fs : List Field) : Prop :=
  List.Forall₂ (fun e f => (nested pos e).result = .ok f) es fs

theorem readEach_eq_ok {nested : NestedReader} {pos : Position} {wrapper : Option String}
    {es : List Element} {fs : List Field} :
    (readEach nested pos wrapper es).result = .ok (fs, true) ↔
      nested.Reads pos (es.filter fun c => isFieldTag c.tag) fs := by
  induction es generalizing fs with
  | nil =>
    rw [List.filter_nil, NestedReader.Reads, List.forall₂_nil_left_iff]
    exact ⟨fun h => (Prod.mk.inj (Except.ok.inj h)).1.symm, fun h => h ▸ rfl⟩
  | cons c es ih =>
    unfold readEach
    split_ifs with hc
    · rw [List.filter_cons_of_pos (by exact hc), NestedReader.Reads, List.forall₂_cons_left_iff]
      constructor
      · intro h
        obtain ⟨field, hfield, h⟩ := Pass.result_bind_eq_ok.mp h
        obtain ⟨⟨rest, ok⟩, hrest, h⟩ := Pass.result_bind_eq_ok.mp h
        cases field with
        | none => cases h
        | some f =>
          cases h
          exact ⟨f, rest, Pass.result_settled_eq_some.mp hfield, ih.mp hrest, rfl⟩
      · rintro ⟨f, rest, hf, hrest, rfl⟩
        refine Pass.result_bind_eq_ok.mpr ⟨some f, ?_, ?_⟩
        · exact Pass.result_settled_eq_some.mpr hf
        · exact Pass.result_bind_eq_ok.mpr ⟨(rest, true), ih.mpr hrest, rfl⟩
    · rw [List.filter_cons_of_neg (by exact hc), ← ih]
      cases wrapper with
      | none => rfl
      | some tag =>
        constructor
        · intro h
          obtain ⟨_, -, h⟩ := Pass.result_bind_eq_ok.mp h
          exact h
        · intro h
          exact Pass.result_bind_eq_ok.mpr ⟨(), rfl, h⟩

theorem readFields_eq_ok {nested : NestedReader} {pos : Position} {wrapper owner : String}
    {e : Element} {fs : List Field} :
    (readFields nested pos wrapper owner e).result = .ok fs ↔
      ∃ r, fieldContainer e wrapper = .ok r ∧
        nested.Reads pos (r.1.filter fun c => isFieldTag c.tag) fs := by
  unfold readFields
  constructor
  · intro h
    obtain ⟨r, hr, h⟩ := Pass.result_bind_eq_ok.mp h
    obtain ⟨⟨fields, ok⟩, hfields, h⟩ := Pass.result_bind_eq_ok.mp h
    obtain ⟨_, hok, h⟩ := Pass.result_bind_eq_ok.mp h
    cases Pass.result_require_eq_ok.mp hok
    cases h
    exact ⟨r, Pass.result_liftM_eq_ok.mp hr, readEach_eq_ok.mp hfields⟩
  · rintro ⟨r, hr, hfields⟩
    refine Pass.result_bind_eq_ok.mpr ⟨r, Pass.result_liftM_eq_ok.mpr hr, ?_⟩
    refine Pass.result_bind_eq_ok.mpr ⟨(fs, true), readEach_eq_ok.mpr hfields, ?_⟩
    exact Pass.result_bind_eq_ok.mpr ⟨(), rfl, rfl⟩

/-- The element declares a field inside of `e`, directly or inside of a child. -/
def Markup.Element.Inner (e c : Element) : Prop :=
  isFieldTag c.tag = true ∧ (c ∈ e.children ∨ ∃ w ∈ e.children, c ∈ w.children)

/-- What the first reader reads inside of an element, the second one reads as well. -/
def NestedReader.CarriesInside (nested nested' : NestedReader) (e : Element) : Prop :=
  ∀ pos c, pos.topLevel = false → e.Inner c →
    Carries Eq (nested pos c).result (nested' pos c).result

theorem NestedReader.Reads.carry {nested nested' : NestedReader} {pos : Position} {e : Element}
    {es : List Element} {fs : List Field} (h : nested.Reads pos es fs)
    (hnested : nested.CarriesInside nested' e) (hpos : pos.topLevel = false)
    (hes : ∀ c ∈ es, e.Inner c) : nested'.Reads pos es fs := by
  refine ((List.forall₂_and_left _ _).mpr ⟨hes, h⟩).imp fun c f hc => ?_
  obtain ⟨f', hf', rfl⟩ := hnested pos c hpos hc.1 f hc.2
  exact hf'

theorem inner_of_fieldContainer {e : Element} {wrapper : String} {r : List Element × Bool}
    (h : fieldContainer e wrapper = .ok r) :
    ∀ c ∈ r.1.filter fun c => isFieldTag c.tag, e.Inner c := by
  intro c hc
  obtain ⟨hmem, htag⟩ := List.mem_filter.mp hc
  refine ⟨htag, ?_⟩
  unfold fieldContainer at h
  split at h
  · cases h
  · cases h
    rename_i w hw
    have hmemw : w ∈ e.childrenNamed wrapper := hw ▸ List.mem_singleton_self w
    exact Or.inr ⟨w, (List.mem_filter.mp hmemw).1, hmem⟩
  · cases h
    exact Or.inl hmem

theorem inner_of_mem_fieldsInside {e c : Element} {wrapper : String}
    (h : c ∈ fieldsInside e wrapper) : e.Inner c := by
  rcases List.mem_append.mp h with hmem | hmem
  · obtain ⟨hmem, htag⟩ := List.mem_filter.mp hmem
    exact ⟨htag, Or.inl hmem⟩
  · obtain ⟨w, hw, hmem⟩ := List.mem_flatMap.mp hmem
    obtain ⟨hmem, htag⟩ := List.mem_filter.mp hmem
    exact ⟨htag, Or.inr ⟨w, (List.mem_filter.mp hw).1, hmem⟩⟩

namespace Alike

variable {ctx ctx' : Context} {core core' : FieldCore} {props props' : Props} {e e' : Element}
  {pos : Position}

section members
variable {nested nested' : NestedReader} (h : Alike ctx ctx' core core' props props' e e')
  (hnested : nested.CarriesInside nested' e)
include h hnested

theorem carries_readFields (hpos : pos.topLevel = false) {wrapper owner owner' : String}
    (hname : wrapper ≠ "name") (hreuse : wrapper ≠ "reuse") :
    Carries Eq (readFields nested pos wrapper owner e).result
      (readFields nested' pos wrapper owner' e').result := by
  intro fs hfs
  obtain ⟨r, hr, hreads⟩ := readFields_eq_ok.mp hfs
  have hcarry := hreads.carry hnested hpos (inner_of_fieldContainer hr)
  refine ⟨fs, readFields_eq_ok.mpr ?_, rfl⟩
  unfold fieldContainer at hr ⊢
  rw [h.childrenNamed wrapper hname hreuse]
  split at hr
  · cases hr
  · exact ⟨r, hr, hcarry⟩
  · cases hr
    refine ⟨(e'.children, false), rfl, ?_⟩
    have hfields := h.fieldChildren
    unfold WireSchema.fieldChildren at hfields
    rw [hfields]
    exact hcarry

omit h hnested in
theorem carries_readAlias (members : List Field) (known : List Alias) (c : Element) :
    Carries Eq (readAlias core members known c) (readAlias core' members known c) := by
  unfold readAlias
  refine carries_bind fun name => carries_bind fun _ => ?_
  dsimp only
  split
  · exact carries_throwBind
  · split
    · exact carries_throwBind
    · exact carries_rfl _

omit hnested in
theorem carries_readAliases (members : List Field) :
    Carries Eq (readAliases core members e) (readAliases core' members e') := by
  unfold readAliases
  rw [h.childrenNamed "alias" (by decide) (by decide)]
  exact carries_foldlM _ _ fun known c =>
    (carries_readAlias members known c).bindEq fun _ => carries_rfl _

theorem carries_readBitfield :
    Carries (fun b b' => b' = b.atLine core'.line) (readBitfield ctx nested core props e).result
      (readBitfield ctx' nested' core' props' e').result := by
  unfold readBitfield readBitfieldLength
  rw [h.readEndian, h.window]
  simp (disch := decide) only [h.parsed]
  refine (h.carries_readFields hnested rfl (by decide) (by decide)).passBindEq fun members => ?_
  refine carries_require.passBindEq fun _ => ?_
  split
  · exact carries_failBind
  · refine carries_passBind fun length => carries_require.passBindEq fun _ => ?_
    exact carries_passBind fun _ => carries_ok rfl

theorem carries_readBundle :
    Carries (fun b b' => b' = b.atLine core'.line) (readBundle nested core e).result
      (readBundle nested' core' e').result := by
  unfold readBundle
  rw [h.window]
  refine (h.carries_readFields hnested rfl (by decide) (by decide)).passBindEq fun members => ?_
  refine carries_require.passBindEq fun _ => ?_
  exact (carries_liftM (h.carries_readAliases members)).passBindEq fun _ => carries_ok rfl

omit h hnested in
theorem carries_readDefaultMember (members : List Field) (s : String) :
    Carries Eq (readDefaultMember core members s) (readDefaultMember core' members s) := by
  unfold readDefaultMember
  split_ifs
  · exact carries_rfl _
  · split
    · split_ifs
      · exact carries_rfl _
      · exact carries_rfl _
      · exact carries_error _ _
    · split
      · exact carries_rfl _
      · exact carries_error _ _

theorem carries_readVariant :
    Carries (fun b b' => b' = b.atLine core'.line) (readVariant nested core props e).result
      (readVariant nested' core' props' e').result := by
  unfold readVariant
  rw [h.window, h.single "defaultMember" (by decide) (by decide)]
  refine (h.carries_readFields hnested rfl (by decide) (by decide)).passBindEq fun members => ?_
  refine carries_passBind fun given => ?_
  have haliases (d : Option Nat) :
      Carries (fun b b' => b' = b.atLine core'.line)
        (do return .variant members d (← readAliases core members e) : Pass Body).result
        (do return .variant members d (← readAliases core' members e') : Pass Body).result :=
    (carries_liftM (h.carries_readAliases members)).passBindEq fun _ => carries_ok rfl
  cases given with
  | none => exact carries_passBind haliases
  | some s => exact (carries_liftM (carries_readDefaultMember members s)).passBindEq haliases

/-! ### Lists -/

theorem carries_readPrefix (key : String) (hname : key ≠ "name") (hreuse : key ≠ "reuse") :
    Carries (fun p p' => p' = p.map (·.atLine core'.line))
      (readPrefix nested core props e key).result
      (readPrefix nested' core' props' e' key).result := by
  unfold readPrefix
  rw [h.single key hname hreuse, h.childrenNamed key hname hreuse, h.window]
  refine carries_passBind fun named => ?_
  split
  · exact carries_fail _ _
  · exact carries_ok rfl
  · exact carries_fail _ _
  · refine (carries_liftM (carries_readPrefixName _ _ e.line e'.line)).passBind fun p p' hp => ?_
    subst hp
    rw [h.line']
    exact carries_ok rfl
  · rename_i w hw
    split
    · rename_i c hc
      have hmemw := hw ▸ List.mem_singleton_self w
      have hmemc : c ∈ WireSchema.fieldChildren w := hc ▸ List.mem_singleton_self c
      obtain ⟨hmemc, htag⟩ := List.mem_filter.mp hmemc
      have hinner : e.Inner c :=
        ⟨htag, Or.inr ⟨w, (List.mem_filter.mp (List.mem_filter.mp hmemw).1).1, hmemc⟩⟩
      exact (hnested _ c rfl hinner).passBindEq fun _ => carries_ok rfl
    · exact carries_fail _ _

theorem carries_readListElement :
    Carries (fun p p' => p' = p.atLine core'.line) (readListElement nested core props e).result
      (readListElement nested' core' props' e').result := by
  have hinside : fieldsInside e' "element" = fieldsInside e "element" := by
    unfold fieldsInside
    rw [h.fieldChildren, h.childrenNamed "element" (by decide) (by decide)]
  unfold readListElement
  rw [h.single "element" (by decide) (by decide), hinside, h.window]
  refine carries_passBind fun named => ?_
  split
  · refine (carries_liftM (carries_readRef _ e.line e'.line)).passBind fun r r' hr => ?_
    subst hr
    rw [h.line']
    exact carries_ok rfl
  · rename_i c hc
    have hinner : e.Inner c := inner_of_mem_fieldsInside (hc ▸ List.mem_singleton_self c)
    exact (hnested _ c rfl hinner).passBindEq fun _ => carries_ok rfl
  · exact carries_fail _ _
  · exact carries_fail _ _

omit h hnested in
theorem carries_checkCounting (count countPrefix lengthPrefix elemLengthPrefix fixed : Bool) :
    Carries Eq (checkCounting core count countPrefix lengthPrefix elemLengthPrefix fixed)
      (checkCounting core' count countPrefix lengthPrefix elemLengthPrefix fixed) := by
  unfold checkCounting
  dsimp only
  split_ifs
  · exact carries_error _ _
  · exact carries_error _ _
  · exact carries_error _ _
  · exact carries_error _ _
  · exact carries_rfl _

theorem carries_readList :
    Carries (fun b b' => b' = b.atLine core'.line) (readList nested core props e).result
      (readList nested' core' props' e').result := by
  unfold readList
  simp (disch := decide) only [h.parsed, h.readFlag]
  refine (h.carries_readListElement hnested).passBind fun element _ helement => ?_
  refine carries_passBind fun count => ?_
  refine (h.carries_readPrefix hnested "countPrefix" (by decide) (by decide)).passBind
    fun countPrefix _ hcount => ?_
  refine (h.carries_readPrefix hnested "lengthPrefix" (by decide) (by decide)).passBind
    fun lengthPrefix _ hlength => ?_
  refine (h.carries_readPrefix hnested "elemLengthPrefix" (by decide) (by decide)).passBind
    fun elemLengthPrefix _ helem => ?_
  subst helement hcount hlength helem
  simp only [Option.isSome_map]
  refine carries_passBind fun fixed => ?_
  exact (carries_liftM (carries_checkCounting _ _ _ _ _)).passBindEq fun _ => carries_ok rfl

/-! ### Bodies -/

/-- **The body of a declaration that is alike is the same, but for the lines of its own
references.** -/
theorem carries_readBody (kind : FieldKind) :
    Carries (fun b b' => b' = b.atLine core'.line)
      (readBody ctx nested kind core pos props e).result
      (readBody ctx' nested' kind core' pos props' e').result := by
  have hsame {α : Type} {f : α → Body} (hf : ∀ a, (f a).atLine core'.line = f a)
      {p q : Pass α} (hpq : Carries Eq p.result q.result) :
      Carries (fun b b' => b' = b.atLine core'.line) (f <$> p).result (f <$> q).result :=
    carries_passMap (hpq.imp fun a b hab => by rw [hf, hab])
  cases kind with
  | int => exact hsame (fun _ => rfl) h.carries_readInt
  | float => exact hsame (fun _ => rfl) (carries_ofExcept h.carries_readFloat)
  | enum => exact hsame (fun _ => rfl) h.carries_readEnum
  | set => exact hsame (fun _ => rfl) h.carries_readSet
  | bitfield => exact h.carries_readBitfield hnested
  | bundle => exact h.carries_readBundle hnested
  | variant => exact h.carries_readVariant hnested
  | string => exact carries_passMap (carries_ofExcept h.carries_readString)
  | data => exact carries_passMap (carries_ofExcept h.carries_readData)
  | list => exact h.carries_readList hnested
  | ref => exact h.carries_readReference
  | optional => exact carries_passMap (carries_ofExcept h.carries_readOptional)

end members

end Alike

end WireSchema
