import WireSchema.Frame
import WireSchema.Interface
import WireSchema.Message
import WireSchema.Proofs.Field.Rereading
import WireSchema.Proofs.Frame.Composition

/-! # Reading without reuse

Where no element has the property `reuse` (`Element.ReuseFree`), reading goes from an element to
smaller ones, so that the size of the element is levels enough (`carries_readField_of_reuseFree`).
Which fields were accepted before makes no difference then: fields of namespaces, interfaces,
messages and frames are read as in a context without bases. -/

namespace WireSchema

open Markup

/-! ### Elements without reuse -/

namespace Markup.Element

/-- No element of the tree has the property `reuse`. -/
inductive ReuseFree : Element → Prop
  | mk {e : Element} (own : (e.props ["reuse"]).single "reuse" = .ok none)
    (children : ∀ c ∈ e.children, ReuseFree c) : ReuseFree e

variable {e c : Element}

theorem ReuseFree.own (h : e.ReuseFree) : (e.props ["reuse"]).single "reuse" = .ok none := by
  cases h with
  | mk own _ => exact own

theorem ReuseFree.of_mem (h : e.ReuseFree) (hc : c ∈ e.children) : c.ReuseFree := by
  cases h with
  | mk _ children => exact children c hc

theorem ReuseFree.inner (h : e.ReuseFree) (hc : e.Inner c) : c.ReuseFree := by
  obtain ⟨-, hc | ⟨w, hw, hc⟩⟩ := hc
  · exact h.of_mem hc
  · exact (h.of_mem hw).of_mem hc

theorem size_pos (e : Element) : 0 < e.size := by
  obtain ⟨tag, attrs, children, text, line⟩ := e
  rw [size]
  exact Nat.succ_pos _

theorem size_le_sizeAll {es : List Element} (h : c ∈ es) : c.size ≤ sizeAll es := by
  induction es with
  | nil => exact absurd h List.not_mem_nil
  | cons e es ih =>
    rw [sizeAll]
    rcases List.mem_cons.mp h with rfl | h
    · exact Nat.le_add_right _ _
    · exact Nat.le_trans (ih h) (Nat.le_add_left _ _)

theorem size_lt_of_mem_children (h : c ∈ e.children) : c.size < e.size := by
  obtain ⟨tag, attrs, children, text, line⟩ := e
  rw [size]
  exact Nat.lt_succ_of_le (size_le_sizeAll h)

/-- A field that is declared inside of an element is a smaller element. -/
theorem Inner.size_lt (h : e.Inner c) : c.size < e.size := by
  obtain ⟨-, hc | ⟨w, hw, hc⟩⟩ := h
  · exact size_lt_of_mem_children hc
  · exact Nat.lt_trans (size_lt_of_mem_children hc) (size_lt_of_mem_children hw)

end Markup.Element

/-! ### Fields -/

section
variable {ctx ctx' : Context} {e : Element}

theorem Context.merge_of_reuseFree (h : e.ReuseFree) (htag : isFieldTag e.tag = true) :
    ctx.merge e = .ok e := by
  obtain ⟨kind, hkind⟩ := Option.isSome_iff_exists.mp htag
  unfold merge
  simp only [hkind, h.own]

theorem Context.size_le_depth (ctx : Context) (e : Element) : e.size ≤ ctx.depth e := by
  unfold depth
  dsimp only
  calc e.size
    _ ≤ e.size + Element.sizeAll (ctx.bases.map (·.2)) := Nat.le_add_right _ _
    _ ≤ 2 * (e.size + Element.sizeAll (ctx.bases.map (·.2))) :=
      Nat.le_mul_of_pos_left _ Nat.two_pos
    _ ≤ _ := Nat.le_mul_of_pos_right _ (Nat.succ_pos _)

/-- **Without reuse the size of an element is levels enough.** What is read with any number of
levels is then read in each context of the schema. -/
theorem carries_readField_of_reuseFree (hversion : ctx'.schemaVersion = ctx.schemaVersion)
    (hendian : ctx'.endian = ctx.endian) {n m : Nat} (pos : Position) (e : Element)
    (hpos : pos.topLevel = false) (htag : isFieldTag e.tag = true) (he : e.ReuseFree)
    (hm : e.size ≤ m) :
    Carries Eq (readField ctx n pos e).result (readField ctx' m pos e).result := by
  induction n generalizing m pos e with
  | zero => exact carries_endless _
  | succ n ih =>
    obtain ⟨m, rfl⟩ : ∃ k, m = k + 1 :=
      Nat.exists_eq_succ_of_ne_zero (Nat.ne_of_gt (Nat.lt_of_lt_of_le e.size_pos hm))
    have hnested : (readField ctx n).CarriesInside (readField ctx' m) e := fun pos c hpos hc =>
      ih pos c hpos hc.1 (he.inner hc) (Nat.le_of_lt_succ (Nat.lt_of_lt_of_le hc.size_lt hm))
    have hmerged : Carries Eq (readMerged ctx (readField ctx n) pos e).result
        (readMerged ctx' (readField ctx' m) pos e).result :=
      carries_readMerged hversion hendian (fun htop => absurd htop (by simp [hpos])) hnested
    have hread (ctx : Context) (levels : Nat) : (readField ctx (levels + 1) pos e).result =
        (readMerged ctx (readField ctx levels) pos e).result := by
      unfold readField
      rw [Context.merge_of_reuseFree he htag]
      exact congrArg Pass.result (pure_bind e _)
    rw [hread, hread]
    exact hmerged

end

variable {ctx : Context} {e : Element} (bases : List (String × Element))

/-- Inside of an element without reuse, bases make no difference. -/
theorem carriesInside_readInside (ctx : Context) (he : e.ReuseFree) :
    (readInside ctx e).CarriesInside (readInside { ctx with bases } e) e ∧
      (readInside { ctx with bases } e).CarriesInside (readInside ctx e) e := by
  have hinside (ctx ctx' : Context) (hversion : ctx'.schemaVersion = ctx.schemaVersion)
      (hendian : ctx'.endian = ctx.endian) :
      (readInside ctx e).CarriesInside (readInside ctx' e) e := fun pos c hpos hc =>
    carries_readField_of_reuseFree hversion hendian pos c hpos hc.1 (he.inner hc)
      (Nat.le_trans (Nat.le_of_lt hc.size_lt) (ctx'.size_le_depth e))
  exact ⟨hinside _ _ rfl rfl, hinside _ _ rfl rfl⟩

theorem sameValue_readInside (he : e.ReuseFree) {c : Element} (hc : e.Inner c) {pos : Position}
    (hpos : pos.topLevel = false) :
    SameValue (readInside ctx e pos c).result (readInside { ctx with bases } e pos c).result := by
  obtain ⟨h, h'⟩ := carriesInside_readInside bases ctx he
  exact sameValue_of_carries (h pos c hpos hc) (h' pos c hpos hc)

/-- A field of a namespace is read as without bases. -/
theorem sameValue_readMerged (he : e.ReuseFree) (pos : Position) :
    SameValue (readMerged ctx (readInside ctx e) pos e).result
      (readMerged { ctx with bases } (readInside { ctx with bases } e) pos e).result := by
  obtain ⟨h, h'⟩ := carriesInside_readInside bases ctx he
  exact sameValue_of_carries (carries_readMerged rfl rfl (fun _ => rfl) h)
    (carries_readMerged rfl rfl (fun _ => rfl) h')

/-! ### Interfaces, messages and frames -/

theorem carries_readFields {nested nested' : NestedReader} {pos : Position}
    (hnested : nested.CarriesInside nested' e) (hpos : pos.topLevel = false)
    (wrapper owner : String) : Carries Eq (readFields nested pos wrapper owner e).result
      (readFields nested' pos wrapper owner e).result := by
  intro fs hfs
  obtain ⟨r, hr, hreads⟩ := readFields_eq_ok.mp hfs
  have hreads' := hreads.carry hnested hpos (inner_of_fieldContainer hr)
  exact ⟨fs, readFields_eq_ok.mpr ⟨r, hr, hreads'⟩, rfl⟩

theorem sameValue_readFields (he : e.ReuseFree) {pos : Position} (hpos : pos.topLevel = false)
    (wrapper owner : String) :
    SameValue (readFields (readInside ctx e) pos wrapper owner e).result
      (readFields (readInside { ctx with bases } e) pos wrapper owner e).result := by
  obtain ⟨h, h'⟩ := carriesInside_readInside bases ctx he
  exact sameValue_of_carries (carries_readFields h hpos _ _) (carries_readFields h' hpos _ _)

theorem Interface.sameValue_read (he : e.ReuseFree) :
    SameValue (Interface.read ctx e).result (Interface.read { ctx with bases } e).result := by
  unfold Interface.read
  refine sameValue_passBind fun name => sameValue_passBind fun _ => sameValue_passBind fun _ => ?_
  exact (sameValue_readFields bases he rfl _ _).passBind fun _ => sameValue_rfl _

theorem Message.sameValue_read (he : e.ReuseFree) :
    SameValue (Message.read ctx e).result (Message.read { ctx with bases } e).result := by
  unfold Message.read
  refine sameValue_passBind fun name => sameValue_passBind fun _ => sameValue_passBind fun _ => ?_
  refine sameValue_passBind fun _ => sameValue_passBind fun _ => sameValue_passBind fun _ => ?_
  refine sameValue_passBind fun _ => sameValue_passBind fun _ => ?_
  exact (sameValue_readFields bases he rfl _ _).passBind fun _ => sameValue_rfl _

theorem Layer.sameValue_read (he : e.ReuseFree) :
    SameValue (Layer.read ctx e).result (Layer.read { ctx with bases } e).result := by
  have hfield (name : String) (named : Option String) :
      SameValue (Layer.readField (readInside ctx e) name named e).result
        (Layer.readField (readInside { ctx with bases } e) name named e).result := by
    unfold Layer.readField
    split
    · exact sameValue_rfl _
    · exact sameValue_rfl _
    · rename_i c hc
      have hinner : e.Inner c := inner_of_mem_fieldsInside (hc ▸ List.mem_singleton_self c)
      exact (sameValue_readInside bases he hinner rfl).passBind fun _ => sameValue_rfl _
    · exact sameValue_rfl _
  unfold Layer.read
  refine sameValue_passBind fun name => sameValue_passBind fun _ => sameValue_passBind fun _ => ?_
  refine sameValue_passBind fun named => ?_
  exact (hfield _ _).passBind fun _ => sameValue_rfl _

theorem Frame.carries_read {ctx ctx' : Context} (hscope : ctx'.scope = ctx.scope)
    (hlayers : ∀ c ∈ declared e, Carries Eq (Layer.read ctx c).result (Layer.read ctx' c).result) :
    Carries Eq (Frame.read ctx e).result (Frame.read ctx' e).result := by
  intro f hf
  obtain ⟨hname, hvalid, hread, hrest⟩ := read_eq_ok.mp hf
  have hread' := (List.forall₂_and_left _ _).mpr
    ⟨fun c hc => hlayers c (List.mem_filter.mp hc).1, readLayers_eq_ok.mp hread⟩
  refine ⟨f, read_eq_ok.mpr ⟨hname, hvalid, readLayers_eq_ok.mpr (hread'.imp ?_), ?_⟩, rfl⟩
  · rintro c l ⟨hcarries, hl⟩
    obtain ⟨_, hl', rfl⟩ := hcarries l hl
    exact hl'
  · unfold Context.externalRef at hrest ⊢
    rwa [hscope]

theorem Frame.sameValue_read (he : e.ReuseFree) :
    SameValue (Frame.read ctx e).result (Frame.read { ctx with bases } e).result := by
  have hdeclared : ∀ c ∈ declared e, c.ReuseFree := by
    intro c hc
    obtain ⟨d, hd, hc⟩ := List.mem_flatMap.mp hc
    split_ifs at hc
    · exact (he.of_mem hd).of_mem hc
    · exact List.mem_singleton.mp hc ▸ he.of_mem hd
  have hlayer (c : Element) (hc : c ∈ declared e) :
      SameValue (Layer.read ctx c).result (Layer.read { ctx with bases } c).result :=
    Layer.sameValue_read bases (hdeclared c hc)
  exact sameValue_of_carries (carries_read rfl fun c hc => (hlayer c hc).carries)
    (carries_read rfl fun c hc => (hlayer c hc).symm.carries)

end WireSchema
