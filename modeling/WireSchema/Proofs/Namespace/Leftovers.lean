import Mathlib.Logic.Relation
import WireSchema.Proofs.Field.Leftovers
import WireSchema.Proofs.Namespace.Refusals
import WireSchema.Proofs.Namespace.Reuse

/-! # What is left over in declarations

A declaration is read stop by stop: an element is read at its place (`Stop`), a field after the one
that it reuses has been merged in, and what it has inside of it is read in turn (`Context.Leads`).
At each place the reader knows some names, and warns about others (`Place.leftovers`). If a
declaration is read, then so is each stop that reading comes to (`passes_of_reaches`), with all of
these warnings (`Place.Read.warned`). -/

namespace WireSchema

open Markup

/-! ### Stops -/

/-- What an element is read as. -/
inductive Place
  | field | interface | message | frame | layer
  | wrapper (tag : String)

/-- An element that reading comes to, and its place. -/
structure Stop where
  place : Place
  element : Element

/-- The properties of an element that are not among those that its reader knows. -/
def strangeProperties (tag : String) (properties : List String) (e : Element) :
    List (Nat × Warning) :=
  ((e.props properties).unknown properties).map fun key => (e.line, .unknownProperty tag key)

/-- The children of a frame, or of the wrapper of its layers, that are no layers or properties. -/
def frameLeftovers (e : Element) : List (Nat × Warning) :=
  ((Frame.declared e).filter fun c =>
    !(layerTags.contains c.tag || c.isPropertyChild Frame.properties)).map
    fun c => (c.line, .unexpectedChild "frame" c.tag)

/-- The warnings that reading an element at the place gives. -/
def Place.leftovers : Place → Element → List (Nat × Warning)
  | .field, e => fieldLeftovers e
  | .interface, e => strangeProperties "interface" Interface.properties e
  | .message, e => strangeProperties "message" Message.properties e
  | .frame, e => frameLeftovers e
  | .layer, e => strangeProperties e.tag (Layer.properties e.tag) e
  | .wrapper tag, e => wrapperLeftovers tag e

/-- Wrappers and the fields that are read. -/
def stopsOf (wrapper : String) (wrappers fields : List Element) : List Stop :=
  wrappers.map (⟨.wrapper wrapper, ·⟩) ++ fields.map (⟨.field, ·⟩)

/-- The stops inside of an element that is read at the place. -/
def Place.stops : Place → Element → List Stop
  | .field, e =>
    match FieldKind.ofTag? e.tag with
    | some kind => stopsOf "members" (kind.wrappersWithin e) (kind.fieldsWithin e)
    | none => []
  | .interface, e => stopsOf "fields" (e.childrenNamed "fields") (fieldsContained e "fields")
  | .message, e => stopsOf "fields" (e.childrenNamed "fields") (fieldsContained e "fields")
  | .frame, e =>
    ((Frame.declared e).filter fun c => layerTags.contains c.tag).map (⟨.layer, ·⟩)
  | .layer, e => (fieldsInside e "field").map (⟨.field, ·⟩)
  | .wrapper _, _ => []

/-- The element that is read at the stop: a field is laid over the one that it reuses. -/
def Context.ReadsAs (ctx : Context) (s : Stop) (e : Element) : Prop :=
  match s.place with
  | .field => ctx.merge s.element = .ok e
  | _ => e = s.element

/-- The second stop is inside of the first one. -/
def Context.Leads (ctx : Context) (s t : Stop) : Prop :=
  ∃ e, ctx.ReadsAs s e ∧ t ∈ s.place.stops e

/-- The element was read at the place, and each of the findings is one of those in question. -/
inductive Place.Read (ctx : Context) (F : Finding → Prop) : Place → Element → Prop
  | field {e : Element} {levels : Nat} {pos : Position} {f : Field}
    (h : (readMerged ctx (readField ctx levels) pos e).EndsWithin F f) : Read ctx F .field e
  | interface {e : Element} {i : Interface} (h : (Interface.read ctx e).EndsWithin F i) :
    Read ctx F .interface e
  | message {e : Element} {m : Message} (h : (Message.read ctx e).EndsWithin F m) :
    Read ctx F .message e
  | frame {e : Element} {f : Frame} (h : (Frame.read ctx e).EndsWithin F f) : Read ctx F .frame e
  | layer {e : Element} {l : Layer} (h : (Layer.read ctx e).EndsWithin F l) : Read ctx F .layer e
  | wrapper {tag : String} {e : Element} (h : Warned F (wrapperLeftovers tag e)) :
    Read ctx F (.wrapper tag) e

/-- The stop was read, and each of the findings is one of those in question. -/
def Context.Passes (ctx : Context) (F : Finding → Prop) (s : Stop) : Prop :=
  ∃ e, ctx.ReadsAs s e ∧ s.place.Read ctx F e

variable {F : Finding → Prop} {ctx : Context} {e : Element} {s t : Stop}

/-! ### Readers -/

/-- What the readers of interfaces and messages do. -/
structure ReadsContained (F : Finding → Prop) (ctx : Context) (e : Element)
    (leftovers : List (Nat × Warning)) : Prop where
  warned : Warned F leftovers
  fields : ∀ c ∈ fieldsContained e "fields", (readInside ctx e).Visits F c
  wrapper : ∀ w ∈ e.childrenNamed "fields", Warned F (wrapperLeftovers "fields" w)

theorem readsContained_interface {i : Interface} (h : (Interface.read ctx e).EndsWithin F i) :
    ReadsContained F ctx e (Place.interface.leftovers e) := by
  obtain ⟨name, -, h⟩ := Pass.endsWithin_bind.mp h
  obtain ⟨_, -, h⟩ := Pass.endsWithin_bind.mp h
  obtain ⟨_, hwarn, h⟩ := Pass.endsWithin_bind.mp h
  obtain ⟨fields, hfields, -⟩ := Pass.endsWithin_bind.mp h
  obtain ⟨hvisits, hwrapper⟩ := visits_readFields hfields
  exact ⟨Pass.endsWithin_warnAll.mp hwarn, hvisits, hwrapper⟩

theorem readsContained_message {m : Message} (h : (Message.read ctx e).EndsWithin F m) :
    ReadsContained F ctx e (Place.message.leftovers e) := by
  obtain ⟨name, -, h⟩ := Pass.endsWithin_bind.mp h
  obtain ⟨_, -, h⟩ := Pass.endsWithin_bind.mp h
  obtain ⟨idSpec, -, h⟩ := Pass.endsWithin_bind.mp h
  obtain ⟨_, -, h⟩ := Pass.endsWithin_bind.mp h
  obtain ⟨window, -, h⟩ := Pass.endsWithin_bind.mp h
  obtain ⟨platforms, -, h⟩ := Pass.endsWithin_bind.mp h
  obtain ⟨interface, -, h⟩ := Pass.endsWithin_bind.mp h
  obtain ⟨_, hwarn, h⟩ := Pass.endsWithin_bind.mp h
  obtain ⟨fields, hfields, -⟩ := Pass.endsWithin_bind.mp h
  obtain ⟨hvisits, hwrapper⟩ := visits_readFields hfields
  exact ⟨Pass.endsWithin_warnAll.mp hwarn, hvisits, hwrapper⟩

theorem visits_readLayer {l : Layer} (h : (Layer.read ctx e).EndsWithin F l) :
    Warned F (Place.layer.leftovers e) ∧
      ∀ c ∈ fieldsInside e "field", (readInside ctx e).Visits F c := by
  obtain ⟨name, -, h⟩ := Pass.endsWithin_bind.mp h
  obtain ⟨_, -, h⟩ := Pass.endsWithin_bind.mp h
  obtain ⟨kind, -, h⟩ := Pass.endsWithin_bind.mp h
  obtain ⟨named, -, h⟩ := Pass.endsWithin_bind.mp h
  obtain ⟨field, hfield, h⟩ := Pass.endsWithin_bind.mp h
  obtain ⟨_, -, h⟩ := Pass.endsWithin_bind.mp h
  obtain ⟨_, -, h⟩ := Pass.endsWithin_bind.mp h
  obtain ⟨_, hwarn, -⟩ := Pass.endsWithin_bind.mp h
  refine ⟨Pass.endsWithin_warnAll.mp hwarn, ?_⟩
  unfold Layer.readField at hfield
  split at hfield
  · next hnone => simp [hnone]
  · next hnone => simp [hnone]
  · next c hc =>
    obtain ⟨f, hf, -⟩ := Pass.endsWithin_bind.mp hfield
    rw [hc, List.forall_mem_singleton]
    exact ⟨_, f, hf⟩
  · exact absurd hfield Pass.not_endsWithin_fail

theorem visits_readLayers {es : List Element} {ls : List Layer}
    (h : (Frame.readLayers ctx es).EndsWithin F (ls, true)) :
    (∀ c ∈ es, layerTags.contains c.tag = true → ∃ l, (Layer.read ctx c).EndsWithin F l) ∧
      ∀ c ∈ es, layerTags.contains c.tag = false → c.isPropertyChild Frame.properties = false →
        F ⟨c.line, .warning (.unexpectedChild "frame" c.tag)⟩ := by
  induction es generalizing ls with
  | nil => simp
  | cons c cs ih =>
    simp only [List.forall_mem_cons]
    rw [Frame.readLayers] at h
    split_ifs at h with hlayer hproperty
    · obtain ⟨layer, hread, h⟩ := Pass.endsWithin_bind.mp h
      obtain ⟨⟨layers, ok⟩, hrest, h⟩ := Pass.endsWithin_bind.mp h
      cases layer with
      | none => simp at h
      | some l =>
        obtain ⟨-, rfl⟩ : l :: layers = ls ∧ ok = true := by simpa using h
        obtain ⟨hlayers, hothers⟩ := ih hrest
        refine ⟨⟨fun _ => ⟨l, Pass.endsWithin_settled.mp hread⟩, hlayers⟩, fun h => ?_, hothers⟩
        rw [hlayer] at h
        cases h
    · obtain ⟨hlayers, hothers⟩ := ih (by simpa using h)
      refine ⟨⟨fun h => absurd h hlayer, hlayers⟩, fun _ h => ?_, hothers⟩
      rw [hproperty] at h
      cases h
    · obtain ⟨_, hwarn, h⟩ := Pass.endsWithin_bind.mp h
      obtain ⟨hlayers, hothers⟩ := ih h
      exact ⟨⟨fun h => absurd h hlayer, hlayers⟩,
        fun _ _ => Pass.endsWithin_warn.mp hwarn, hothers⟩

theorem visits_readFrame {f : Frame} (h : (Frame.read ctx e).EndsWithin F f) :
    Warned F (frameLeftovers e) ∧ ∀ c ∈ Frame.declared e, layerTags.contains c.tag = true →
      ∃ l, (Layer.read ctx c).EndsWithin F l := by
  obtain ⟨name, -, h⟩ := Pass.endsWithin_bind.mp h
  obtain ⟨_, -, h⟩ := Pass.endsWithin_bind.mp h
  obtain ⟨⟨layers, ok⟩, hlayers, h⟩ := Pass.endsWithin_bind.mp h
  obtain ⟨_, hok, -⟩ := Pass.endsWithin_bind.mp h
  obtain rfl : ok = true := Pass.endsWithin_require.mp hok
  obtain ⟨hread, hothers⟩ := visits_readLayers hlayers
  refine ⟨List.forall_mem_map.mpr fun c hc => ?_, hread⟩
  obtain ⟨hmem, hc⟩ := List.mem_filter.mp hc
  rw [Bool.not_eq_true', Bool.or_eq_false_iff] at hc
  exact hothers c hmem hc.1 hc.2

/-! ### From stop to stop -/

theorem passes_of_visits {levels : Nat} {c : Element}
    (h : NestedReader.Visits (readField ctx levels) F c) : ctx.Passes F ⟨.field, c⟩ := by
  obtain ⟨n, pos, merged, f, hmerge, hread⟩ := visits_readField h
  exact ⟨merged, hmerge, .field hread⟩

theorem passes_of_mem_stopsOf {wrapper : String} {wrappers fields : List Element} {levels : Nat}
    (hfields : ∀ c ∈ fields, NestedReader.Visits (readField ctx levels) F c)
    (hwrappers : ∀ w ∈ wrappers, Warned F (wrapperLeftovers wrapper w))
    (ht : t ∈ stopsOf wrapper wrappers fields) : ctx.Passes F t := by
  rcases List.mem_append.mp ht with ht | ht
  · obtain ⟨w, hw, rfl⟩ := List.mem_map.mp ht
    exact ⟨w, rfl, .wrapper (hwrappers w hw)⟩
  · obtain ⟨c, hc, rfl⟩ := List.mem_map.mp ht
    exact passes_of_visits (hfields c hc)

/-- **An element that is read gives its warnings.** -/
theorem Place.Read.warned {place : Place} (h : place.Read ctx F e) : Warned F (place.leftovers e) := by
  cases h with
  | field h => exact (visits_readMerged h).1
  | interface h => exact (readsContained_interface h).warned
  | message h => exact (readsContained_message h).warned
  | frame h => exact (visits_readFrame h).1
  | layer h => exact (visits_readLayer h).1
  | wrapper h => exact h

/-- **What is inside of an element that is read, is read.** -/
theorem Place.Read.stops {place : Place} (h : place.Read ctx F e) (ht : t ∈ place.stops e) :
    ctx.Passes F t := by
  cases h with
  | field h =>
    obtain ⟨-, hinside⟩ := visits_readMerged h
    unfold Place.stops at ht
    cases hkind : FieldKind.ofTag? e.tag with
    | none => simp [hkind] at ht
    | some kind =>
      obtain ⟨hfields, hwrappers⟩ := hinside kind hkind
      exact passes_of_mem_stopsOf hfields hwrappers (by simpa [hkind] using ht)
  | interface h =>
    have hread := readsContained_interface h
    exact passes_of_mem_stopsOf hread.fields hread.wrapper ht
  | message h =>
    have hread := readsContained_message h
    exact passes_of_mem_stopsOf hread.fields hread.wrapper ht
  | frame h =>
    obtain ⟨c, hc, rfl⟩ := List.mem_map.mp ht
    obtain ⟨hmem, htag⟩ := List.mem_filter.mp hc
    obtain ⟨l, hl⟩ := (visits_readFrame h).2 c hmem htag
    exact ⟨c, rfl, .layer hl⟩
  | layer h =>
    obtain ⟨c, hc, rfl⟩ := List.mem_map.mp ht
    exact passes_of_visits ((visits_readLayer h).2 c hc)
  | wrapper h => exact absurd ht List.not_mem_nil

/-- A field is laid over one element at most. -/
theorem Context.ReadsAs.unique {e' : Element} (h : ctx.ReadsAs s e) (h' : ctx.ReadsAs s e') :
    e = e' := by
  obtain ⟨place, element⟩ := s
  cases place with
  | field => exact Except.ok.inj (h.symm.trans h')
  | interface | message | frame | layer | wrapper tag => exact h.trans h'.symm

/-- **Each stop that reading comes to is read.** -/
theorem passes_of_reaches (h : ctx.Passes F s) (hreach : Relation.ReflTransGen ctx.Leads s t) :
    ctx.Passes F t := by
  -- from the declaration inwards: what is read passes on to the stops inside of it
  induction hreach with
  | refl => exact h
  | tail _ hleads ih =>
    obtain ⟨e, hreads, hmem⟩ := hleads
    obtain ⟨e', hreads', hread⟩ := ih
    exact (hreads.unique hreads' ▸ hread).stops hmem

/-! ### What is written -/

theorem unknown_props (e : Element) (names : List String) :
    (e.props names).unknown names = (e.attrs.map (·.1)).filter fun k => !names.contains k := by
  unfold Element.props Props.unknown Props.keys
  rw [List.map_append, List.filter_append, List.append_right_eq_self]
  refine List.filter_eq_nil_iff.mpr fun k hk => ?_
  obtain ⟨a, ha, rfl⟩ := List.mem_map.mp hk
  obtain ⟨c, hc, ha⟩ := List.mem_filterMap.mp ha
  obtain ⟨v, -, rfl⟩ := Option.map_eq_some_iff.mp ha
  simpa using (List.mem_filter.mp hc).2

/-- What is left over in a field as it is written, is left over after a merge. -/
theorem fieldLeftovers_subset_of_merge {merged : Element} (h : ctx.merge e = .ok merged) :
    fieldLeftovers e ⊆ fieldLeftovers merged := by
  obtain ⟨kind, hkind, rfl | ⟨base, -, -, rfl⟩⟩ := Context.merge_eq_ok h
  · exact List.Subset.refl _
  · have htag : FieldKind.ofTag? (e.inheritFrom base kind.properties).tag = some kind := hkind
    unfold fieldLeftovers unknownParts
    rw [hkind, htag]
    dsimp only
    rw [unknown_props, unknown_props]
    refine List.append_subset.mpr ⟨fun w hw => List.mem_append_left _ ?_,
      fun w hw => List.mem_append_right _ ?_⟩
    · obtain ⟨key, hkey, rfl⟩ := List.mem_map.mp hw
      obtain ⟨hmem, hstrange⟩ := List.mem_filter.mp hkey
      obtain ⟨a, ha, rfl⟩ := List.mem_map.mp hmem
      -- of its own attributes an element loses `reuse`, which is known
      have hreuse : a.1 ≠ "reuse" := by
        intro heq
        rw [heq] at hstrange
        simp [FieldKind.properties, commonProperties] at hstrange
      have hkept : a ∈ (e.inheritFrom base kind.properties).attrs :=
        List.mem_append_right _ (List.mem_filter.mpr ⟨ha, by simpa using hreuse⟩)
      exact List.mem_map.mpr ⟨a.1, List.mem_filter.mpr
        ⟨List.mem_map_of_mem hkept, hstrange⟩, rfl⟩
    · obtain ⟨c, hc, rfl⟩ := List.mem_map.mp hw
      obtain ⟨hmem, hstrange⟩ := List.mem_filter.mp hc
      have hkept : c ∈ (e.inheritFrom base kind.properties).children :=
        List.mem_append_right _ hmem
      exact List.mem_map.mpr ⟨c, List.mem_filter.mpr ⟨hkept, hstrange⟩, rfl⟩

theorem leftovers_subset_of_readsAs (h : ctx.ReadsAs s e) :
    s.place.leftovers s.element ⊆ s.place.leftovers e := by
  obtain ⟨place, element⟩ := s
  cases place with
  | field => exact fieldLeftovers_subset_of_merge h
  | interface | message | frame | layer | wrapper tag =>
    obtain rfl : e = element := h
    exact List.Subset.refl _

/-! ### Declarations -/

/-- The place of a declaration of the kind. -/
def DeclarationKind.place : DeclarationKind → Place
  | .field => .field
  | .interface => .interface
  | .message => .message
  | .frame => .frame

theorem DeclarationKind.passes_of_add {kind : DeclarationKind} {setting : Setting}
    {p q : Population} (h : (kind.add setting p e).EndsWithin F q) :
    (p.context setting).Passes F ⟨kind.place, e⟩ := by
  cases kind with
  | field =>
    obtain ⟨merged, hmerge, h⟩ := Pass.endsWithin_bind.mp h
    obtain ⟨f, hread, -⟩ := Pass.endsWithin_bind.mp h
    rw [Pass.endsWithin_liftM] at hmerge
    exact ⟨merged, hmerge, .field hread⟩
  | interface =>
    obtain ⟨i, hread, -⟩ := Pass.endsWithin_bind.mp h
    exact ⟨e, rfl, .interface hread⟩
  | message =>
    obtain ⟨m, hread, -⟩ := Pass.endsWithin_bind.mp h
    exact ⟨e, rfl, .message hread⟩
  | frame =>
    obtain ⟨f, hread, -⟩ := Pass.endsWithin_bind.mp h
    exact ⟨e, rfl, .frame hread⟩

end WireSchema
