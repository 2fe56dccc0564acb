import WireSchema.Proofs.Namespace.Visits

/-! # What a parent does not understand

A child that is neither a declaration, a wrapper nor a property of its parent is a stranger there,
and so is a property that the parent does not have (`Place.strangers`). The reader warns about a
stranger, or it passes it over in silence (`Place.silence`): there is no third way
(`Place.strangers_subset`). -/

namespace WireSchema

open Markup

/-- The children that are no properties and do not have one of the tags. -/
def strangeChildren (tag : String) (properties : List String) (known : String → Bool) (e : Element) :
    List (Nat × Warning) :=
  (e.children.filter fun c => !(known c.tag || c.isPropertyChild properties)).map
    fun c => (c.line, .unexpectedChild tag c.tag)

/-- The attributes of a wrapper. It understands none. -/
def strangeAttributes (tag : String) (w : Element) : List (Nat × Warning) :=
  w.attrs.map fun a => (w.line, .unknownProperty tag a.1)

/-- What the wrapper of declarations of the kind does not understand. -/
def DeclarationKind.wrapperStrangers (kind : DeclarationKind) (w : Element) :
    List (Nat × Warning) :=
  strangeAttributes kind.wrapper w ++ (w.children.filter fun c => !kind.accepts c.tag).map
    fun c => (c.line, .unexpectedChild kind.wrapper c.tag)

/-- The children of a wrapper of layers that are no layers. -/
def layersLeftovers (w : Element) : List (Nat × Warning) :=
  (w.children.filter fun c => !layerTags.contains c.tag).map
    fun c => (c.line, .unexpectedChild "frame" c.tag)

/-- What a field does not understand. -/
def fieldStrangers (e : Element) : List (Nat × Warning) :=
  match FieldKind.ofTag? e.tag with
  | some kind => strangeProperties e.tag kind.properties e ++
      strangeChildren e.tag kind.properties kind.childTags.contains e
  | none => []

/-- Among it the children that have the name of a property, but are none. -/
def fieldSilence (e : Element) : List (Nat × Warning) :=
  match FieldKind.ofTag? e.tag with
  | some kind => strangeChildren e.tag kind.properties kind.childTags.contains
      { e with children := e.children.filter fun c => kind.properties.contains c.tag }
  | none => []

/-- What a frame does not understand, and the wrapper of its layers. -/
def frameStrangers (e : Element) : List (Nat × Warning) :=
  strangeProperties "frame" Frame.properties e ++
    strangeChildren "frame" Frame.properties (fun t => layerTags.contains t || t == "layers") e ++
    (e.childrenNamed "layers").flatMap fun w => strangeAttributes "layers" w ++ layersLeftovers w

/-- Among it the properties, and what would be a property outside of the wrapper. -/
def frameSilence (e : Element) : List (Nat × Warning) :=
  strangeProperties "frame" Frame.properties e ++
    (e.childrenNamed "layers").flatMap fun w => strangeAttributes "layers" w ++
      layersLeftovers { w with children := w.children.filter (·.isPropertyChild Frame.properties) }

/-- What an element does not understand that is read at the place. -/
def Place.strangers : Place → Element → List (Nat × Warning)
  | .field, e => fieldStrangers e
  | .interface, e => strangeProperties "interface" Interface.properties e ++
      strangeChildren "interface" Interface.properties (fun t => isFieldTag t || t == "fields") e
  | .message, e => strangeProperties "message" Message.properties e ++
      strangeChildren "message" Message.properties (fun t => isFieldTag t || t == "fields") e
  | .frame, e => frameStrangers e
  | .layer, e => strangeProperties e.tag (Layer.properties e.tag) e ++
      strangeChildren e.tag (Layer.properties e.tag) (fun t => isFieldTag t || t == "field") e
  | .wrapper tag, w => strangeAttributes tag w ++ wrapperLeftovers tag w

/-- What the reader of an element at the place passes over in silence. -/
def Place.silence : Place → Element → List (Nat × Warning)
  | .field, e => fieldSilence e
  | .interface, e =>
    strangeChildren "interface" Interface.properties (fun t => isFieldTag t || t == "fields") e
  | .message, e =>
    strangeChildren "message" Message.properties (fun t => isFieldTag t || t == "fields") e
  | .frame, e => frameSilence e
  | .layer, e =>
    strangeChildren e.tag (Layer.properties e.tag) (fun t => isFieldTag t || t == "field") e
  | .wrapper tag, w => strangeAttributes tag w

variable {e : Element}

theorem fieldStrangers_subset :
    fieldStrangers e ⊆ fieldLeftovers e ++ fieldSilence e := by
  unfold fieldStrangers fieldLeftovers fieldSilence unknownParts
  cases FieldKind.ofTag? e.tag with
  | none => exact List.nil_subset _
  | some kind =>
    refine List.append_subset.mpr ⟨fun w hw => ?_, fun w hw => ?_⟩
    · exact List.mem_append_left _ (List.mem_append_left _ hw)
    · obtain ⟨c, hc, rfl⟩ := List.mem_map.mp hw
      obtain ⟨hmem, hstrange⟩ := List.mem_filter.mp hc
      cases hproperty : kind.properties.contains c.tag with
      | true =>
        have hkept : c ∈ e.children.filter fun c => kind.properties.contains c.tag :=
          List.mem_filter.mpr ⟨hmem, hproperty⟩
        exact List.mem_append_right _
          (List.mem_map.mpr ⟨c, List.mem_filter.mpr ⟨hkept, hstrange⟩, rfl⟩)
      | false =>
        simp only [Bool.not_eq_true', Bool.or_eq_false_iff] at hstrange
        refine List.mem_append_left _ (List.mem_append_right _
          (List.mem_map.mpr ⟨c, List.mem_filter.mpr ⟨hmem, ?_⟩, rfl⟩))
        rw [hproperty, hstrange.1]
        rfl

theorem frameStrangers_subset :
    frameStrangers e ⊆ frameLeftovers e ++ frameSilence e := by
  -- what is neither a layer nor a property is left over, wherever it is declared
  have hleft {c : Element} (hc : c ∈ Frame.declared e) (hlayer : layerTags.contains c.tag = false)
      (hproperty : c.isPropertyChild Frame.properties = false) :
      (c.line, Warning.unexpectedChild "frame" c.tag) ∈ frameLeftovers e :=
    List.mem_map.mpr ⟨c, List.mem_filter.mpr ⟨hc, by rw [hlayer, hproperty]; rfl⟩, rfl⟩
  refine List.append_subset.mpr ⟨List.append_subset.mpr ⟨fun w hw => ?_, fun w hw => ?_⟩,
    fun w hw => ?_⟩
  · exact List.mem_append_right _ (List.mem_append_left _ hw)
  · obtain ⟨c, hc, rfl⟩ := List.mem_map.mp hw
    obtain ⟨hmem, hstrange⟩ := List.mem_filter.mp hc
    simp only [Bool.not_eq_true', Bool.or_eq_false_iff] at hstrange
    obtain ⟨⟨hlayer, hlayers⟩, hproperty⟩ := hstrange
    refine List.mem_append_left _ (hleft (List.mem_flatMap.mpr ⟨c, hmem, ?_⟩) hlayer hproperty)
    rw [hlayers]
    exact List.mem_singleton_self c
  · obtain ⟨v, hv, hw⟩ := List.mem_flatMap.mp hw
    rcases List.mem_append.mp hw with hw | hw
    · exact List.mem_append_right _ (List.mem_append_right _
        (List.mem_flatMap.mpr ⟨v, hv, List.mem_append_left _ hw⟩))
    · obtain ⟨c, hc, rfl⟩ := List.mem_map.mp hw
      obtain ⟨hmem, hlayer⟩ := List.mem_filter.mp hc
      cases hproperty : c.isPropertyChild Frame.properties with
      | true =>
        have hkept : c ∈ v.children.filter (·.isPropertyChild Frame.properties) :=
          List.mem_filter.mpr ⟨hmem, hproperty⟩
        exact List.mem_append_right _ (List.mem_append_right _ (List.mem_flatMap.mpr ⟨v, hv,
          List.mem_append_right _ (List.mem_map.mpr ⟨c, List.mem_filter.mpr ⟨hkept, hlayer⟩, rfl⟩)⟩))
      | false =>
        obtain ⟨hv, htag⟩ := List.mem_filter.mp hv
        refine List.mem_append_left _ (hleft (List.mem_flatMap.mpr ⟨v, hv, ?_⟩)
          (Bool.not_eq_true' _ ▸ hlayer) hproperty)
        rw [htag]
        exact hmem

/-- **A stranger is left over or passed over in silence.** -/
theorem Place.strangers_subset (place : Place) (e : Element) :
    place.strangers e ⊆ place.leftovers e ++ place.silence e := by
  cases place with
  | field => exact fieldStrangers_subset
  | interface | message | layer => exact List.Subset.refl _
  | frame => exact frameStrangers_subset
  | wrapper tag =>
    exact List.append_subset.mpr ⟨List.subset_append_right _ _, List.subset_append_left _ _⟩

end WireSchema
