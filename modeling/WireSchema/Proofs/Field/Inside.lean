import WireSchema.Proofs.Field.Nesting
import WireSchema.Proofs.Field.Reading
import WireSchema.Proofs.Finding.Yield

/-! # What is inside of the fields that are read

The fields inside of a field that is read come from the reader of nested fields
(`yields_inner_readBody`). Hence a property that every field has as it is read holds of the fields
inside of it as well, at any depth (`gives_everywhere_readField`). -/

namespace WireSchema

open Markup Relation

/-- All fields that the reader gives have the property. -/
def NestedReader.Gives (nested : NestedReader) (P : Field → Prop) : Prop :=
  ∀ pos e, (nested pos e).Yields P

/-- All fields that the reader gives inside of an element with the window have the property. -/
def NestedReader.GivesIn (nested : NestedReader) (w : Window) (P : Field → Prop) : Prop :=
  ∀ pos e, pos.parent = w → (nested pos e).Yields P

theorem NestedReader.Gives.givesIn {nested : NestedReader} {P : Field → Prop}
    (h : nested.Gives P) (w : Window) : nested.GivesIn w P :=
  fun pos e _ => h pos e

/-! ### Fields inside -/

section
variable {P : Field → Prop} {nested : NestedReader} {ctx : Context} {core : FieldCore}
  {pos : Position} {props : Props} {e : Element}

theorem yields_readEach (h : ∀ e, (nested pos e).Yields P) (wrapper : Option String)
    (es : List Element) : (readEach nested pos wrapper es).Yields fun r => ∀ f ∈ r.1, P f := by
  induction es with
  | nil => exact Pass.yields_pure fun f hf => absurd hf List.not_mem_nil
  | cons child rest ih =>
    unfold readEach
    split_ifs
    · refine ((h child).settled child.line).bind fun field hfield => ?_
      refine ih.bind fun r hr => ?_
      cases field with
      | none => exact Pass.yields_pure hr
      | some f => exact Pass.yields_pure (List.forall_mem_cons.mpr ⟨hfield f rfl, hr⟩)
    · split
      · exact Pass.yields_bind fun _ => ih
      · exact ih

theorem yields_readFields (h : ∀ e, (nested pos e).Yields P) (wrapper owner : String) :
    (readFields nested pos wrapper owner e).Yields fun fs => ∀ f ∈ fs, P f := by
  unfold readFields
  refine Pass.yields_bind fun _ => ?_
  refine (yields_readEach h _ _).bind fun r hr => ?_
  exact Pass.yields_bind fun _ => Pass.yields_pure hr

theorem yields_readPrefix (h : nested.GivesIn core.window P) (key : String) :
    (readPrefix nested core props e key).Yields fun p => ∀ f ∈ prefixInner p, P f := by
  unfold readPrefix
  refine Pass.yields_bind fun named => ?_
  split
  · exact Pass.yields_fail _
  · exact Pass.yields_pure fun f hf => absurd hf List.not_mem_nil
  · exact Pass.yields_fail _
  · exact Pass.yields_bind fun _ => Pass.yields_pure fun f hf => absurd hf List.not_mem_nil
  · split
    · refine (h _ _ rfl).bind fun f hf => Pass.yields_pure ?_
      simpa [prefixInner] using hf
    · exact Pass.yields_fail _

theorem yields_readListElement (h : nested.GivesIn core.window P) :
    (readListElement nested core props e).Yields fun p => ∀ f ∈ p.inner, P f := by
  unfold readListElement
  refine Pass.yields_bind fun named => ?_
  split
  · exact Pass.yields_bind fun _ => Pass.yields_pure fun f hf => absurd hf List.not_mem_nil
  · refine (h _ _ rfl).bind fun f hf => Pass.yields_pure ?_
    simpa [Part.inner] using hf
  · exact Pass.yields_fail _
  · exact Pass.yields_fail _

theorem yields_inner_readBitfield (h : nested.GivesIn core.window P) :
    (readBitfield ctx nested core props e).Yields fun body =>
      body.kind = .bitfield ∧ ∀ f ∈ body.inner, P f := by
  unfold readBitfield
  refine (yields_readFields (fun e => h _ e rfl) _ _).bind fun members hmembers => ?_
  refine Pass.yields_bind fun _ => ?_
  split
  · exact Pass.yields_bind fun _ => Pass.yields_bind fun _ => Pass.yields_bind fun _ =>
      Pass.yields_bind fun _ => Pass.yields_pure ⟨rfl, hmembers⟩
  · exact Pass.yields_bind fun _ => Pass.yields_bind fun _ => Pass.yields_bind fun _ =>
      Pass.yields_pure ⟨rfl, hmembers⟩

theorem yields_inner_readBundle (h : nested.GivesIn core.window P) :
    (readBundle nested core e).Yields fun body =>
      body.kind = .bundle ∧ ∀ f ∈ body.inner, P f := by
  unfold readBundle
  refine (yields_readFields (fun e => h _ e rfl) _ _).bind fun members hmembers => ?_
  exact Pass.yields_bind fun _ => Pass.yields_bind fun _ => Pass.yields_pure ⟨rfl, hmembers⟩

theorem yields_inner_readVariant (h : nested.GivesIn core.window P) :
    (readVariant nested core props e).Yields fun body =>
      body.kind = .variant ∧ ∀ f ∈ body.inner, P f := by
  unfold readVariant
  refine (yields_readFields (fun e => h _ e rfl) _ _).bind fun members hmembers => ?_
  refine Pass.yields_bind fun _ => ?_
  split
  · exact Pass.yields_bind fun _ => Pass.yields_bind fun _ => Pass.yields_pure ⟨rfl, hmembers⟩
  · exact Pass.yields_bind fun _ => Pass.yields_bind fun _ => Pass.yields_pure ⟨rfl, hmembers⟩

theorem yields_inner_readList (h : nested.GivesIn core.window P) :
    (readList nested core props e).Yields fun body =>
      body.kind = .list ∧ ∀ f ∈ body.inner, P f := by
  unfold readList
  refine (yields_readListElement h).bind fun element helement => Pass.yields_bind fun _ => ?_
  refine (yields_readPrefix h _).bind fun c hc => (yields_readPrefix h _).bind fun l hl => ?_
  refine (yields_readPrefix h _).bind fun el hel => ?_
  refine Pass.yields_bind fun _ => Pass.yields_bind fun _ => Pass.yields_pure ⟨rfl, fun f hf => ?_⟩
  simp only [Body.inner, List.mem_append] at hf
  rcases hf with hf | hf | hf | hf
  · exact helement f hf
  · exact hc f hf
  · exact hl f hf
  · exact hel f hf

theorem yields_inner_readReference :
    (readReference core pos props).Yields fun body =>
      body.kind = .ref ∧ ∀ f ∈ body.inner, P f := by
  have hnone (target : FieldRef) (bitLength : Option Nat) :
      (Body.ref target bitLength).kind = .ref ∧ ∀ f ∈ (Body.ref target bitLength).inner, P f :=
    ⟨rfl, fun f hf => absurd hf List.not_mem_nil⟩
  unfold readReference
  refine Pass.yields_bind fun _ => Pass.yields_bind fun _ => Pass.yields_bind fun given => ?_
  split
  · split_ifs
    · split
      · exact Pass.yields_pure (hnone _ _)
      · exact Pass.yields_fail _
    · exact Pass.yields_bind fun _ => Pass.yields_pure (hnone _ _)
  · exact Pass.yields_bind fun _ => Pass.yields_pure (hnone _ _)

/-- **The fields inside of a body that is read come from the reader of nested fields**, and the body
is of the kind that is read. -/
theorem yields_inner_readBody (h : nested.GivesIn core.window P) (kind : FieldKind) :
    (readBody ctx nested kind core pos props e).Yields fun body =>
      body.kind = kind ∧ ∀ f ∈ body.inner, P f := by
  cases kind with
  | bitfield => exact yields_inner_readBitfield h
  | bundle => exact yields_inner_readBundle h
  | variant => exact yields_inner_readVariant h
  | list => exact yields_inner_readList h
  | ref => exact yields_inner_readReference
  | int | float | enum | set | string | data | optional =>
    exact Pass.yields_map fun _ _ => ⟨rfl, fun f hf => absurd hf List.not_mem_nil⟩

end

/-! ### Properties at every depth -/

namespace Field

/-- The field and all fields inside of it have the property. -/
def Everywhere (P : Field → Prop) (f : Field) : Prop := ∀ g : Field, g.Within f → P g

theorem everywhere_iff {P : Field → Prop} {f : Field} :
    f.Everywhere P ↔ P f ∧ ∀ g ∈ f.inner, g.Everywhere P := by
  constructor
  · intro h
    exact ⟨h f ReflTransGen.refl, fun g hg k hk => h k (ReflTransGen.head hg hk)⟩
  · rintro ⟨hf, hall⟩ k hk
    rcases ReflTransGen.cases_head hk with rfl | ⟨g, hg, hk⟩
    · exact hf
    · exact hall g hg k hk

/-- A change that reaches the fields inside, and of which the property says nothing. -/
theorem everywhere_iff_of_inner {P : Field → Prop} {step : Field → Field}
    (hinner : ∀ f, (step f).inner = f.inner.map step) (hP : ∀ f, P (step f) ↔ P f) (f : Field) :
    (step f).Everywhere P ↔ f.Everywhere P := by
  induction f using nested_induction with
  | step f ih =>
    rw [everywhere_iff, everywhere_iff, hP, hinner, List.forall_mem_map]
    exact and_congr_right fun _ => forall₂_congr ih

/-- The bodies of the field and of all fields inside of it have the property. -/
def Throughout (B : Body → Prop) (f : Field) : Prop := ∀ g : Field, g.Within f → B g.body

theorem throughout_iff {B : Body → Prop} {f : Field} :
    f.Throughout B ↔ B f.body ∧ ∀ g ∈ f.inner, g.Throughout B :=
  everywhere_iff

end Field

section
variable {P : Field → Prop}
  (hP : ∀ ctx nested pos e, (readMerged ctx nested pos e).Yields P)

include hP

theorem yields_everywhere_readMerged {ctx : Context} {nested : NestedReader}
    (h : nested.Gives (Field.Everywhere P)) (pos : Position) (e : Element) :
    (readMerged ctx nested pos e).Yields (Field.Everywhere P) := by
  intro f hf
  obtain ⟨kind, -, -, hbody, -⟩ := readMerged_eq_ok.mp hf
  exact Field.everywhere_iff.mpr
    ⟨hP _ _ _ _ f hf, (yields_inner_readBody (h.givesIn _) kind _ hbody).2⟩

/-- **What holds of every field as it is read holds at every depth of a field that is read.** -/
theorem gives_everywhere_readField (ctx : Context) (levels : Nat) :
    (readField ctx levels).Gives (Field.Everywhere P) := by
  induction levels with
  | zero => exact fun pos e => Pass.yields_endless
  | succ levels ih =>
    intro pos e
    exact Pass.yields_bind fun merged => yields_everywhere_readMerged hP ih pos merged

end

/-- The field was read from an element. -/
def Field.IsRead (f : Field) : Prop :=
  ∃ ctx nested pos e, (readMerged ctx nested pos e).result = .ok f

/-- What holds of every body that is read holds of the fields that have these bodies. -/
theorem yields_body_readMerged {B : Body → Prop}
    (hB : ∀ ctx nested kind core pos props e,
      (readBody ctx nested kind core pos props e).Yields B)
    (ctx : Context) (nested : NestedReader) (pos : Position) (e : Element) :
    (readMerged ctx nested pos e).Yields fun f => B f.body := by
  intro f hf
  obtain ⟨kind, -, -, hbody, -⟩ := readMerged_eq_ok.mp hf
  exact hB _ _ _ _ _ _ _ _ hbody

theorem Field.IsRead.exists_readBody {f : Field} (h : f.IsRead) : ∃ ctx nested pos props e,
    (readBody ctx nested f.kind f.core pos props e).result = .ok f.body := by
  obtain ⟨ctx, nested, pos, e, hf⟩ := h
  obtain ⟨kind, -, -, hbody, -⟩ := readMerged_eq_ok.mp hf
  have hinner : nested.GivesIn f.core.window fun _ => True := fun _ _ _ _ _ => trivial
  obtain ⟨rfl, -⟩ := yields_inner_readBody hinner kind _ hbody
  exact ⟨ctx, nested, pos, _, e, hbody⟩

end WireSchema
