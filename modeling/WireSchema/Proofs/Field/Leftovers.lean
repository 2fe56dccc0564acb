import WireSchema.Proofs.Field.Reading
import WireSchema.Proofs.Finding.Ending

/-! # What is left over in fields

The reader of a field warns about its properties and children of which it does not know the name,
and the reader of members about the children of their wrapper that are no fields. What a field has
inside of it is read in turn: in a reading that ends, each field that is declared inside is visited,
and all of these warnings are found (`visits_readMerged`, `visits_readField`). -/

namespace WireSchema

open Markup

variable {F : Finding → Prop} {ctx : Context} {nested : NestedReader} {pos : Position}
  {core : FieldCore} {props : Props} {e : Element} {wrapper : String}

/-- Each of the warnings is one of the findings in question. -/
def Warned (F : Finding → Prop) (ws : List (Nat × Warning)) : Prop :=
  ∀ w ∈ ws, F ⟨w.1, .warning w.2⟩

/-- The reader reads the element at some position, and each of its findings is one of those in
question. -/
def NestedReader.Visits (nested : NestedReader) (F : Finding → Prop) (c : Element) : Prop :=
  ∃ pos f, (nested pos c).EndsWithin F f

/-! ### Members -/

/-- The children of a wrapper that declare no fields. -/
def wrapperLeftovers (tag : String) (w : Element) : List (Nat × Warning) :=
  (w.children.filter fun c => !isFieldTag c.tag).map fun c => (c.line, .unexpectedChild tag c.tag)

/-- The fields that are declared in an element, in its wrapper if it has one. -/
def fieldsContained (e : Element) (wrapper : String) : List Element :=
  match fieldContainer e wrapper with
  | .ok r => r.1.filter fun c => isFieldTag c.tag
  | .error _ => []

theorem visits_readEach {tag? : Option String} {es : List Element} {fs : List Field}
    (h : (readEach nested pos tag? es).EndsWithin F (fs, true)) :
    (∀ c ∈ es, isFieldTag c.tag = true → nested.Visits F c) ∧
      ∀ c ∈ es, isFieldTag c.tag = false → ∀ tag ∈ tag?,
        F ⟨c.line, .warning (.unexpectedChild tag c.tag)⟩ := by
  induction es generalizing fs with
  | nil => simp
  | cons c cs ih =>
    simp only [List.forall_mem_cons]
    rw [readEach] at h
    split_ifs at h with hfield
    · obtain ⟨field, hread, h⟩ := Pass.endsWithin_bind.mp h
      obtain ⟨⟨fields, ok⟩, hrest, h⟩ := Pass.endsWithin_bind.mp h
      cases field with
      | none => simp at h
      | some f =>
        obtain ⟨-, rfl⟩ : f :: fields = fs ∧ ok = true := by simpa using h
        obtain ⟨hfields, hothers⟩ := ih hrest
        refine ⟨⟨fun _ => ⟨pos, f, Pass.endsWithin_settled.mp hread⟩, hfields⟩, ?_, hothers⟩
        simp [hfield]
    · cases tag? with
      | none =>
        obtain ⟨hfields, hothers⟩ := ih (by simpa using h)
        exact ⟨⟨fun h => absurd h hfield, hfields⟩, by simp, hothers⟩
      | some tag =>
        obtain ⟨_, hwarn, h⟩ := Pass.endsWithin_bind.mp h
        obtain ⟨hfields, hothers⟩ := ih h
        refine ⟨⟨fun h => absurd h hfield, hfields⟩, fun _ => ?_, hothers⟩
        rintro _ ⟨⟩
        exact Pass.endsWithin_warn.mp hwarn

/-- **Members are visited**, and the reader warns about everything else in their wrapper. -/
theorem visits_readFields {owner : String} {fs : List Field}
    (h : (readFields nested pos wrapper owner e).EndsWithin F fs) :
    (∀ c ∈ fieldsContained e wrapper, nested.Visits F c) ∧
      ∀ w ∈ e.childrenNamed wrapper, Warned F (wrapperLeftovers wrapper w) := by
  obtain ⟨⟨children, wrapped⟩, hcontainer, h⟩ := Pass.endsWithin_bind.mp h
  obtain ⟨⟨fields, ok⟩, heach, h⟩ := Pass.endsWithin_bind.mp h
  obtain ⟨_, hok, -⟩ := Pass.endsWithin_bind.mp h
  rw [Pass.endsWithin_liftM] at hcontainer
  obtain rfl : ok = true := Pass.endsWithin_require.mp hok
  obtain ⟨hfields, hothers⟩ := visits_readEach heach
  refine ⟨fun c hc => ?_, fun w hw => ?_⟩
  · unfold fieldsContained at hc
    rw [hcontainer] at hc
    obtain ⟨hmem, htag⟩ := List.mem_filter.mp hc
    exact hfields c hmem htag
  · unfold fieldContainer at hcontainer
    split at hcontainer
    · cases hcontainer
    · next w' hwrapper =>
      cases hcontainer
      obtain rfl : w = w' := List.mem_singleton.mp (hwrapper ▸ hw)
      refine List.forall_mem_map.mpr fun c hc => ?_
      obtain ⟨hmem, htag⟩ := List.mem_filter.mp hc
      exact hothers c hmem (by simpa using htag) wrapper rfl
    · next hnone =>
      rw [hnone] at hw
      exact absurd hw List.not_mem_nil

/-! ### Parts of lists -/

theorem visits_readListElement {part : Part}
    (h : (readListElement nested core props e).EndsWithin F part) :
    ∀ c ∈ fieldsInside e "element", nested.Visits F c := by
  obtain ⟨named, -, h⟩ := Pass.endsWithin_bind.mp h
  split at h
  · next hnone => simp [hnone]
  · next field hfield =>
    obtain ⟨f, hf, -⟩ := Pass.endsWithin_bind.mp h
    rw [hfield, List.forall_mem_singleton]
    exact ⟨_, f, hf⟩
  · exact absurd h Pass.not_endsWithin_fail
  · exact absurd h Pass.not_endsWithin_fail

theorem visits_readPrefix {key : String} {source : Option Prefix}
    (h : (readPrefix nested core props e key).EndsWithin F source) :
    ∀ w ∈ e.childrenNamed key, ∀ c ∈ fieldChildren w, nested.Visits F c := by
  -- a wrapper with a field in it has children
  have hfull {w c : Element} (hw : w ∈ e.childrenNamed key) (hc : c ∈ fieldChildren w) :
      w ∈ (e.childrenNamed key).filter fun w => !w.children.isEmpty := by
    refine List.mem_filter.mpr ⟨hw, ?_⟩
    have hne := List.ne_nil_of_mem (List.mem_filter.mp hc).1
    simpa using hne
  obtain ⟨named, -, h⟩ := Pass.endsWithin_bind.mp h
  intro w hw c hc
  have hmem := hfull hw hc
  split at h
  · exact absurd h Pass.not_endsWithin_fail
  · next hnone => simp [hnone] at hmem
  · exact absurd h Pass.not_endsWithin_fail
  · next hnone => simp [hnone] at hmem
  · next wrapper hwrapper =>
    obtain rfl : w = wrapper := List.mem_singleton.mp (hwrapper ▸ hmem)
    split at h
    · next field hfield =>
      obtain rfl : c = field := List.mem_singleton.mp (hfield ▸ hc)
      obtain ⟨f, hf, -⟩ := Pass.endsWithin_bind.mp h
      exact ⟨_, f, hf⟩
    · exact absurd h Pass.not_endsWithin_fail

/-! ### Fields -/

/-- The tags of the prefixes of a list. -/
def prefixTags : List String := ["countPrefix", "lengthPrefix", "elemLengthPrefix"]

/-- The fields that the reader of a field of the kind finds inside of its element. -/
def FieldKind.fieldsWithin : FieldKind → Element → List Element
  | .bitfield, e => fieldsContained e "members"
  | .bundle, e => fieldsContained e "members"
  | .variant, e => fieldsContained e "members"
  | .list, e =>
    fieldsInside e "element" ++
      prefixTags.flatMap fun key => (e.childrenNamed key).flatMap fieldChildren
  | _, _ => []

/-- The wrappers of members in the element of a field of the kind. -/
def FieldKind.wrappersWithin : FieldKind → Element → List Element
  | .bitfield, e => e.childrenNamed "members"
  | .bundle, e => e.childrenNamed "members"
  | .variant, e => e.childrenNamed "members"
  | _, _ => []

theorem visits_readList {body : Body} (h : (readList nested core props e).EndsWithin F body) :
    ∀ c ∈ FieldKind.list.fieldsWithin e, nested.Visits F c := by
  obtain ⟨_, helement, h⟩ := Pass.endsWithin_bind.mp h
  obtain ⟨_, -, h⟩ := Pass.endsWithin_bind.mp h
  obtain ⟨_, hcount, h⟩ := Pass.endsWithin_bind.mp h
  obtain ⟨_, hlength, h⟩ := Pass.endsWithin_bind.mp h
  obtain ⟨_, helemLength, -⟩ := Pass.endsWithin_bind.mp h
  have hprefix {key : String} (hkey : key ∈ prefixTags) :
      ∀ w ∈ e.childrenNamed key, ∀ c ∈ fieldChildren w, nested.Visits F c := by
    simp only [prefixTags, List.mem_cons, List.not_mem_nil, or_false] at hkey
    rcases hkey with rfl | rfl | rfl
    · exact visits_readPrefix hcount
    · exact visits_readPrefix hlength
    · exact visits_readPrefix helemLength
  refine List.forall_mem_append.mpr ⟨visits_readListElement helement, fun c hc => ?_⟩
  obtain ⟨key, hkey, hc⟩ := List.mem_flatMap.mp hc
  obtain ⟨w, hw, hc⟩ := List.mem_flatMap.mp hc
  exact hprefix hkey w hw c hc

theorem visits_readBody {kind : FieldKind} {body : Body}
    (h : (readBody ctx nested kind core pos props e).EndsWithin F body) :
    (∀ c ∈ kind.fieldsWithin e, nested.Visits F c) ∧
      ∀ w ∈ kind.wrappersWithin e, Warned F (wrapperLeftovers "members" w) := by
  cases kind with
  | bitfield | bundle | variant =>
    obtain ⟨members, hmembers, -⟩ := Pass.endsWithin_bind.mp h
    exact visits_readFields hmembers
  | list => exact ⟨visits_readList h, fun w hw => absurd hw List.not_mem_nil⟩
  | int | float | enum | set | string | data | ref | optional =>
    exact ⟨fun c hc => absurd hc List.not_mem_nil, fun w hw => absurd hw List.not_mem_nil⟩

/-- The properties and children of which the reader of a field does not know the name. -/
def fieldLeftovers (e : Element) : List (Nat × Warning) :=
  match FieldKind.ofTag? e.tag with
  | some kind => unknownParts e (e.props kind.properties) kind.properties kind.childTags
  | none => []

/-- **A field that is read** warns about what is left over in it and in the wrapper of its members,
and visits the fields inside of it. -/
theorem visits_readMerged {f : Field} (h : (readMerged ctx nested pos e).EndsWithin F f) :
    Warned F (fieldLeftovers e) ∧ ∀ kind, FieldKind.ofTag? e.tag = some kind →
      (∀ c ∈ kind.fieldsWithin e, nested.Visits F c) ∧
      ∀ w ∈ kind.wrappersWithin e, Warned F (wrapperLeftovers "members" w) := by
  unfold readMerged at h
  unfold fieldLeftovers
  cases hkind : FieldKind.ofTag? e.tag with
  | none =>
    rw [hkind] at h
    exact absurd h Pass.not_endsWithin_fail
  | some kind =>
    rw [hkind] at h
    obtain ⟨core, -, h⟩ := Pass.endsWithin_bind.mp h
    obtain ⟨body, hbody, h⟩ := Pass.endsWithin_bind.mp h
    obtain ⟨_, -, h⟩ := Pass.endsWithin_bind.mp h
    obtain ⟨_, hwarn, -⟩ := Pass.endsWithin_bind.mp h
    refine ⟨Pass.endsWithin_warnAll.mp hwarn, ?_⟩
    rintro _ ⟨⟩
    exact visits_readBody hbody

/-- A visit merges the element with the field that it reuses, and reads it on a lower level. -/
theorem visits_readField {levels : Nat} {c : Element}
    (h : NestedReader.Visits (readField ctx levels) F c) :
    ∃ n pos merged f, ctx.merge c = .ok merged ∧
      (readMerged ctx (readField ctx n) pos merged).EndsWithin F f := by
  obtain ⟨pos, f, h⟩ := h
  cases levels with
  | zero => exact absurd h Pass.not_endsWithin_endless
  | succ n =>
    obtain ⟨merged, hmerge, h⟩ := Pass.endsWithin_bind.mp h
    rw [Pass.endsWithin_liftM] at hmerge
    exact ⟨n, pos, merged, f, hmerge, h⟩

end WireSchema
