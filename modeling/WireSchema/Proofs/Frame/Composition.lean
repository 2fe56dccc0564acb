import Mathlib.Data.List.Forall2
import Mathlib.Data.List.Nodup
import WireSchema.Frame
import WireSchema.Proofs.Field.Reading
import WireSchema.Proofs.Finding.Yield

/-! # The composition of frames

Layers go together if one of them is the payload, at most one has the id, their names differ and
every checksum covers the way to a layer on the right side of it (`Frame.Composed`).
`compositionFault?` looks a layer up at its first place, which is the only one once the names differ
(`position?_eq_some`), and so it finds no fault in just these layers (`compositionFault?_eq_none`).
A frame that is read has the layers that its element declares, one for each in the order of the
document (`readLayers_eq_ok`), and they go together (`frames_are_composed`). -/

namespace WireSchema

open Markup

/-! ### Items at their places -/

section places
variable {α : Type} {p : α → Bool} {xs : List α}

/-- The list has an item with the property at the place. -/
def PlacedAt (xs : List α) (P : α → Prop) (i : Nat) : Prop := ∃ a, xs[i]? = some a ∧ P a

@[simp] theorem not_placedAt_nil {P : α → Prop} {i : Nat} : ¬ PlacedAt [] P i := by
  simp [PlacedAt]

@[simp] theorem placedAt_cons_zero {P : α → Prop} {a : α} : PlacedAt (a :: xs) P 0 ↔ P a := by
  simp [PlacedAt]

@[simp] theorem placedAt_cons_succ {P : α → Prop} {a : α} {i : Nat} :
    PlacedAt (a :: xs) P (i + 1) ↔ PlacedAt xs P i := by
  simp [PlacedAt]

theorem exists_placedAt_iff {P : α → Prop} : (∃ i, PlacedAt xs P i) ↔ ∃ a ∈ xs, P a := by
  simp only [PlacedAt, List.mem_iff_getElem?]
  constructor
  · rintro ⟨i, a, ha, hP⟩
    exact ⟨a, ⟨i, ha⟩, hP⟩
  · rintro ⟨a, ⟨i, ha⟩, hP⟩
    exact ⟨i, a, ha, hP⟩

theorem countP_le_one_iff :
    xs.countP p ≤ 1 ↔ ∀ i j, PlacedAt xs (p · = true) i → PlacedAt xs (p · = true) j → i = j := by
  induction xs with
  | nil => simp
  | cons a xs ih =>
    by_cases ha : p a = true
    -- the first item has the property: no other one may have it
    · rw [List.countP_cons_of_pos ha]
      constructor
      · intro hle i j hi hj
        have hzero : xs.countP p = 0 := by omega
        have hno (k : Nat) : ¬ PlacedAt xs (p · = true) k := fun hk => by
          obtain ⟨b, hb, hpb⟩ := exists_placedAt_iff.mp ⟨k, hk⟩
          exact List.countP_eq_zero.mp hzero b hb hpb
        rcases i with _ | i <;> rcases j with _ | j
        · rfl
        · exact absurd (placedAt_cons_succ.mp hj) (hno j)
        · exact absurd (placedAt_cons_succ.mp hi) (hno i)
        · exact absurd (placedAt_cons_succ.mp hi) (hno i)
      · intro hone
        by_contra hlt
        have hpos : 0 < xs.countP p := by omega
        obtain ⟨k, hk⟩ := exists_placedAt_iff.mpr (List.countP_pos_iff.mp hpos)
        have hzero := hone 0 (k + 1) (placedAt_cons_zero.mpr ha) (placedAt_cons_succ.mpr hk)
        omega
    -- it has not: the places are those of the rest, one further on
    · rw [List.countP_cons_of_neg ha, ih]
      constructor
      · intro hone i j hi hj
        rcases i with _ | i
        · exact absurd (placedAt_cons_zero.mp hi) ha
        · rcases j with _ | j
          · exact absurd (placedAt_cons_zero.mp hj) ha
          · rw [hone i j (placedAt_cons_succ.mp hi) (placedAt_cons_succ.mp hj)]
      · intro hone i j hi hj
        have hsucc := hone (i + 1) (j + 1) (placedAt_cons_succ.mpr hi) (placedAt_cons_succ.mpr hj)
        omega

theorem countP_eq_one_iff : xs.countP p = 1 ↔ ∃! i, PlacedAt xs (p · = true) i := by
  have hsome : 0 < xs.countP p ↔ ∃ i, PlacedAt xs (p · = true) i :=
    List.countP_pos_iff.trans exists_placedAt_iff.symm
  constructor
  · intro hone
    obtain ⟨i, hi⟩ := hsome.mp (by omega)
    exact ⟨i, hi, fun j hj => countP_le_one_iff.mp (by omega) j i hj hi⟩
  · rintro ⟨i, hi, hunique⟩
    have hpos := hsome.mpr ⟨i, hi⟩
    have hle : xs.countP p ≤ 1 := countP_le_one_iff.mpr fun j k hj hk =>
      (hunique j hj).trans (hunique k hk).symm
    omega

/-- A search finds the item with the property if it is at one place only. -/
theorem find?_eq_some_iff_of_unique {a : α}
    (hone : ∀ i j, PlacedAt xs (p · = true) i → PlacedAt xs (p · = true) j → i = j) :
    xs.find? p = some a ↔ a ∈ xs ∧ p a = true := by
  constructor
  · intro h
    exact ⟨List.mem_of_find?_eq_some h, List.find?_some h⟩
  · rintro ⟨hmem, hpa⟩
    obtain ⟨b, hb⟩ : ∃ b, xs.find? p = some b :=
      Option.isSome_iff_exists.mp (List.find?_isSome.mpr ⟨a, hmem, hpa⟩)
    obtain ⟨i, hi⟩ := List.mem_iff_getElem?.mp hmem
    obtain ⟨j, hj⟩ := List.mem_iff_getElem?.mp (List.mem_of_find?_eq_some hb)
    have hij : i = j := hone i j ⟨a, hi, hpa⟩ ⟨b, hj, List.find?_some hb⟩
    have hab : a = b := by
      rw [hij, hj] at hi
      exact (Option.some.inj hi).symm
    rw [hb, hab]

end places

namespace Frame

variable {layers : List Layer} {range : ChecksumRange} {name : String} {i j : Nat}

/-- A checksum at the place covers the way to the named layer: the layer that it begins with lies
before it, the one that it goes on to lies behind it. -/
def Reaches (layers : List Layer) (i : Nat) : ChecksumRange → Prop
  | .since target => ∃ j, j < i ∧ PlacedAt layers (·.name = target) j
  | .until target => ∃ j, i < j ∧ PlacedAt layers (·.name = target) j

/-- The layers go together: the payload stands at one place, the id at one at most, names differ,
and checksums reach the layers that they name. -/
structure Composed (layers : List Layer) : Prop where
  payload : ∃! i, PlacedAt layers (·.kind = .payload) i
  id : ∀ i j, PlacedAt layers (·.kind = .id) i → PlacedAt layers (·.kind = .id) j → i = j
  names : (layers.map Layer.name).Nodup
  checksums : ∀ i l alg range verify, layers[i]? = some l → l.kind = .checksum alg range verify →
    Reaches layers i range

/-! ### Names -/

theorem nodup_names_iff : (layers.map Layer.name).Nodup ↔
    ∀ i l, layers[i]? = some l → ¬ ∃ j, j < i ∧ PlacedAt layers (·.name = l.name) j := by
  rw [List.Nodup, List.pairwise_map, List.pairwise_iff_getElem]
  constructor
  · rintro hdistinct i l hl ⟨j, hji, m, hm, hname⟩
    obtain ⟨hi, rfl⟩ := List.getElem?_eq_some_iff.mp hl
    obtain ⟨hj, rfl⟩ := List.getElem?_eq_some_iff.mp hm
    exact hdistinct j i hj hi hji hname
  · intro hnone j i hj hi hji hname
    exact hnone i layers[i] (List.getElem?_eq_getElem hi)
      ⟨j, hji, layers[j], List.getElem?_eq_getElem hj, hname⟩

theorem eq_of_names (hnames : (layers.map Layer.name).Nodup)
    (hi : PlacedAt layers (·.name = name) i) (hj : PlacedAt layers (·.name = name) j) : i = j := by
  obtain ⟨l, hl, rfl⟩ := hi
  obtain ⟨m, hm, hname⟩ := hj
  rcases Nat.lt_trichotomy i j with hlt | heq | hlt
  · exact absurd ⟨i, hlt, l, hl, hname.symm⟩ (nodup_names_iff.mp hnames j m hm)
  · exact heq
  · exact absurd ⟨j, hlt, m, hm, hname⟩ (nodup_names_iff.mp hnames i l hl)

/-- With names that differ, the first place of a name is the place of the name. -/
theorem position?_eq_some (hnames : (layers.map Layer.name).Nodup) :
    position? layers name = some i ↔ PlacedAt layers (·.name = name) i := by
  have hfirst {k : Nat} (h : position? layers name = some k) :
      PlacedAt layers (·.name = name) k := by
    obtain ⟨hk, hname, -⟩ := List.findIdx?_eq_some_iff_getElem.mp h
    exact ⟨layers[k], List.getElem?_eq_getElem hk, beq_iff_eq.mp hname⟩
  constructor
  · exact hfirst
  · intro hi
    obtain ⟨l, hl, hname⟩ := exists_placedAt_iff.mp ⟨i, hi⟩
    obtain ⟨k, hk⟩ : ∃ k, position? layers name = some k :=
      ⟨_, List.findIdx?_eq_some_of_exists ⟨l, hl, beq_iff_eq.mpr hname⟩⟩
    rw [hk, eq_of_names hnames hi (hfirst hk)]

theorem coversRightSide_iff (hnames : (layers.map Layer.name).Nodup) :
    coversRightSide layers i range = true ↔ Reaches layers i range := by
  cases range with
  | since target | «until» target =>
    simp only [coversRightSide, Reaches, Option.any_eq_true, decide_eq_true_eq,
      position?_eq_some hnames, and_comm, gt_iff_lt]

/-! ### Faults -/

theorem repeated_iff {l : Layer} : (layers.take i).any (·.name == l.name) = true ↔
    ∃ j, j < i ∧ PlacedAt layers (·.name = l.name) j := by
  simp only [List.any_eq_true, beq_iff_eq, ← exists_placedAt_iff]
  refine exists_congr fun j => ?_
  unfold PlacedAt
  rw [List.getElem?_take]
  by_cases hji : j < i
  · simp [hji]
  · simp [hji]

theorem layerFault?_eq_none {l : Layer} : layerFault? layers i l = none ↔
    (¬ ∃ j, j < i ∧ PlacedAt layers (·.name = l.name) j) ∧
      ∀ alg range verify, l.kind = .checksum alg range verify →
        coversRightSide layers i range = true := by
  rw [← repeated_iff, layerFault?]
  by_cases hrepeated : (layers.take i).any (·.name == l.name) = true
  · simp [hrepeated]
  · rw [if_neg hrepeated]
    cases hkind : l.kind with
    | checksum alg range verify =>
      by_cases hside : coversRightSide layers i range = true
      · simp [hside, hrepeated]
      · simp [hside]
    | _ => simp [hrepeated]

theorem compositionFault?_cases : compositionFault? layers = none ↔
    layers.countP (·.isPayload) = 1 ∧ layers.countP (·.kind == .id) ≤ 1 ∧
      ∀ i l, layers[i]? = some l → layerFault? layers i l = none := by
  have hlayers : (layers.zipIdx.findSome? fun p => layerFault? layers p.2 p.1) = none ↔
      ∀ i l, layers[i]? = some l → layerFault? layers i l = none := by
    rw [List.findSome?_eq_none_iff]
    constructor
    · intro hall i l hl
      exact hall (l, i) (List.mk_mem_zipIdx_iff_getElem?.mpr hl)
    · intro hall p hp
      exact hall p.2 p.1 (List.mem_zipIdx_iff_getElem?.mp hp)
  rw [← hlayers, compositionFault?]
  by_cases hpayload : layers.countP (·.isPayload) = 1
  · by_cases hids : layers.countP (·.kind == .id) ≤ 1
    · simp [hpayload, hids, Nat.not_lt.mpr hids]
    · simp [hpayload, hids, Nat.not_le.mp hids]
  · simp [hpayload]

/-- **The check finds no fault in layers that go together, and only in these.** -/
theorem compositionFault?_eq_none : compositionFault? layers = none ↔ Composed layers := by
  rw [compositionFault?_cases, countP_eq_one_iff, countP_le_one_iff]
  simp only [Layer.isPayload, beq_iff_eq, layerFault?_eq_none]
  constructor
  · rintro ⟨hpayload, hid, hfaultless⟩
    -- names differ all along the list, so a range is not looked up in front of its layer's double
    have hnames : (layers.map Layer.name).Nodup := nodup_names_iff.mpr fun i l hl =>
      (hfaultless i l hl).1
    refine ⟨hpayload, hid, hnames, fun i l alg range verify hl hkind => ?_⟩
    exact (coversRightSide_iff hnames).mp ((hfaultless i l hl).2 alg range verify hkind)
  · intro h
    refine ⟨h.payload, h.id, fun i l hl => ⟨nodup_names_iff.mp h.names i l hl, ?_⟩⟩
    intro alg range verify hkind
    exact (coversRightSide_iff h.names).mpr (h.checksums i l alg range verify hl hkind)

end Frame

/-! ### Layers in the document -/

namespace Layer

variable {ctx : Context} {e : Element} {tag name : String} {props : Props}

/-- The layer is read from the element, with the name, the kind and the line that stand there. -/
structure ReadFrom (ctx : Context) (e : Element) (l : Layer) : Prop where
  read : (Layer.read ctx e).result = .ok l
  name : (e.props (properties e.tag)).required "name" = .ok l.name
  kind : l.kind.tag = e.tag
  line : l.line = e.line

theorem tag_of_readKind {k : LayerKind} (h : readKind tag name props = .ok k) : k.tag = tag := by
  unfold readKind at h
  split at h
  · cases h; rfl
  · cases h; rfl
  · cases h; rfl
  · cases h; rfl
  · obtain ⟨_, -, h⟩ := bind_eq_ok.mp h
    obtain ⟨_, -, h⟩ := bind_eq_ok.mp h
    cases h; rfl
  · obtain ⟨_, -, h⟩ := bind_eq_ok.mp h
    obtain ⟨_, -, h⟩ := bind_eq_ok.mp h
    obtain ⟨_, -, h⟩ := bind_eq_ok.mp h
    obtain ⟨_, -, h⟩ := bind_eq_ok.mp h
    obtain ⟨_, -, h⟩ := bind_eq_ok.mp h
    cases h; rfl
  · cases h

theorem yields_readFrom : (Layer.read ctx e).Yields (ReadFrom ctx e) := by
  intro l hl
  have hshape : (Layer.read ctx e).Yields fun l =>
      (e.props (properties e.tag)).required "name" = .ok l.name ∧ l.kind.tag = e.tag ∧
        l.line = e.line := by
    unfold Layer.read
    refine (Pass.yields_liftM fun _ h => h).bind fun name hname => ?_
    refine Pass.yields_bind fun _ => ?_
    refine (Pass.yields_liftM fun _ h => tag_of_readKind h).bind fun kind hkind => ?_
    refine Pass.yields_bind fun _ => Pass.yields_bind fun _ => Pass.yields_bind fun _ => ?_
    refine Pass.yields_bind fun _ => Pass.yields_bind fun _ => Pass.yields_bind fun _ => ?_
    exact Pass.yields_pure ⟨hname, hkind, rfl⟩
  obtain ⟨hname, hkind, hline⟩ := hshape l hl
  exact ⟨hl, hname, hkind, hline⟩

end Layer

namespace Frame

variable {ctx : Context} {e : Element} {f : Frame} {layers : List Layer}

/-- The elements that declare layers, those in a frame and those in a wrapper inside of it. -/
def layerElements (e : Element) : List Element :=
  e.children.flatMap fun c =>
    (if c.tag = "layers" then c.children else [c]).filter fun d => layerTags.contains d.tag

theorem filter_declared :
    (declared e).filter (fun c => layerTags.contains c.tag) = layerElements e := by
  simp only [declared, layerElements, List.filter_flatMap, beq_iff_eq]

/-- All elements that declare layers are read, one after the other, and the others are passed
over. -/
theorem readLayers_eq_ok {es : List Element} :
    (readLayers ctx es).result = .ok (layers, true) ↔
      List.Forall₂ (fun c l => (Layer.read ctx c).result = .ok l)
        (es.filter fun c => layerTags.contains c.tag) layers := by
  induction es generalizing layers with
  | nil => simp [readLayers, eq_comm]
  | cons c es ih =>
    unfold readLayers
    by_cases hlayer : layerTags.contains c.tag = true
    · rw [if_pos hlayer, List.filter_cons_of_pos (by exact hlayer), List.forall₂_cons_left_iff]
      simp only [Pass.result_bind_eq_ok, ← ih]
      constructor
      · rintro ⟨layer, hread, ⟨rest, ok⟩, hrest, h⟩
        cases layer with
        | none => simp at h
        | some l =>
          simp only [Pass.result_pure, Except.ok.injEq, Prod.mk.injEq] at h
          obtain ⟨rfl, rfl⟩ := h
          exact ⟨l, rest, Pass.result_settled_eq_some.mp hread, hrest, rfl⟩
      · rintro ⟨l, rest, hread, hrest, rfl⟩
        refine ⟨some l, ?_, (rest, true), hrest, rfl⟩
        exact Pass.result_settled_eq_some.mpr hread
    · rw [if_neg hlayer, List.filter_cons_of_neg (by exact hlayer), ← ih]
      split_ifs
      · rfl
      · rfl

/-- A frame is read if its name, its layers and its description are and the layers go together. -/
theorem read_eq_ok : (Frame.read ctx e).result = .ok f ↔
    (e.props properties).required "name" = .ok f.name ∧ Literal.isName f.name = true ∧
      (readLayers ctx (declared e)).result = .ok (f.layers, true) ∧
      (e.props properties).textOf "description" = .ok f.description ∧
      compositionFault? f.layers = none ∧
      f.externalRef = ctx.externalRef f.name ∧ f.line = e.line := by
  unfold Frame.read
  constructor
  · intro h
    obtain ⟨name, hname, h⟩ := Pass.result_bind_eq_ok.mp h
    obtain ⟨_, hvalid, h⟩ := Pass.result_bind_eq_ok.mp h
    obtain ⟨⟨layers, ok⟩, hlayers, h⟩ := Pass.result_bind_eq_ok.mp h
    obtain ⟨_, hok, h⟩ := Pass.result_bind_eq_ok.mp h
    obtain ⟨description, hdescription, h⟩ := Pass.result_bind_eq_ok.mp h
    rw [Pass.result_liftM_eq_ok] at hname hvalid hdescription
    rw [Pass.result_require_eq_ok.mp hok] at hlayers
    cases hfault : compositionFault? layers with
    | some fault =>
      simp only [hfault] at h
      obtain ⟨_, hfail, -⟩ := Pass.result_bind_eq_ok.mp h
      cases hfail
    | none =>
      simp only [hfault] at h
      cases h
      exact ⟨hname, checkName_eq_ok.mp hvalid, hlayers, hdescription, hfault, rfl, rfl⟩
  · rintro ⟨hname, hvalid, hlayers, hdescription, hfault, href, hline⟩
    obtain ⟨name, externalRef, description, layers, line⟩ := f
    change externalRef = ctx.externalRef name at href
    subst href hline
    refine Pass.result_bind_eq_ok.mpr ⟨name, Pass.result_liftM_eq_ok.mpr hname, ?_⟩
    refine Pass.result_bind_eq_ok.mpr
      ⟨(), Pass.result_liftM_eq_ok.mpr (checkName_eq_ok.mpr hvalid), ?_⟩
    refine Pass.result_bind_eq_ok.mpr ⟨(layers, true), hlayers, ?_⟩
    refine Pass.result_bind_eq_ok.mpr ⟨(), Pass.result_require_eq_ok.mpr rfl, ?_⟩
    refine Pass.result_bind_eq_ok.mpr
      ⟨description, Pass.result_liftM_eq_ok.mpr hdescription, ?_⟩
    simp only [hfault]
    rfl

/-! ### Looking up layers -/

section lookup
variable {l : Layer} (h : Composed f.layers)

include h

theorem Composed.exists_payload : ∃ l, f.payload? = some l := by
  obtain ⟨i, hi, -⟩ := h.payload
  obtain ⟨l, hl, hkind⟩ := exists_placedAt_iff.mp ⟨i, hi⟩
  exact Option.isSome_iff_exists.mp (List.find?_isSome.mpr ⟨l, hl, beq_iff_eq.mpr hkind⟩)

theorem Composed.payload?_eq_some : f.payload? = some l ↔ l ∈ f.layers ∧ l.kind = .payload := by
  unfold payload?
  rw [find?_eq_some_iff_of_unique, Layer.isPayload, beq_iff_eq]
  simp only [Layer.isPayload, beq_iff_eq]
  exact fun i j hi hj => h.payload.unique hi hj

theorem Composed.idLayer?_eq_some : f.idLayer? = some l ↔ l ∈ f.layers ∧ l.kind = .id := by
  unfold idLayer?
  rw [find?_eq_some_iff_of_unique, beq_iff_eq]
  simp only [beq_iff_eq]
  exact h.id

theorem Composed.layer?_eq_some {name : String} :
    f.layer? name = some l ↔ l ∈ f.layers ∧ l.name = name := by
  unfold layer?
  rw [find?_eq_some_iff_of_unique, beq_iff_eq]
  simp only [beq_iff_eq]
  exact fun i j hi hj => eq_of_names h.names hi hj

end lookup

/-- **Frames are composed of the layers that are declared in them.** The check of the composition
accepts layers if and only if they go together: one of them is the payload, at most one has the id,
their names differ and checksums reach to a layer on the right side of them. A frame that is read
has one layer for each element that declares one, in the order of the document, and they go
together; the payload, the layer with the id and the layer with a name are found in it, and each of
them is the only one. -/
theorem frames_are_composed (ctx : Context) (e : Element) :
    (∀ layers, compositionFault? layers = none ↔ Composed layers) ∧
    ∀ f, (Frame.read ctx e).result = .ok f →
      List.Forall₂ (Layer.ReadFrom ctx) (layerElements e) f.layers ∧ Composed f.layers ∧
      (∃ l, f.payload? = some l) ∧
      (∀ l, f.payload? = some l ↔ l ∈ f.layers ∧ l.kind = .payload) ∧
      (∀ l, f.idLayer? = some l ↔ l ∈ f.layers ∧ l.kind = .id) ∧
      ∀ name l, f.layer? name = some l ↔ l ∈ f.layers ∧ l.name = name := by
  refine ⟨fun layers => compositionFault?_eq_none, fun f h => ?_⟩
  obtain ⟨-, -, hlayers, -, hfault, -⟩ := read_eq_ok.mp h
  rw [readLayers_eq_ok, filter_declared] at hlayers
  have hread : List.Forall₂ (Layer.ReadFrom ctx) (layerElements e) f.layers :=
    hlayers.imp fun _ l hl => Layer.yields_readFrom l hl
  have hcomposed := compositionFault?_eq_none.mp hfault
  exact ⟨hread, hcomposed, hcomposed.exists_payload, fun _ => hcomposed.payload?_eq_some,
    fun _ => hcomposed.idLayer?_eq_some, fun _ _ => hcomposed.layer?_eq_some⟩

/-- A frame with a checksum, which covers all that lies behind it up to the end of the payload; some
of the layers are in a wrapper. -/
def checkedFrame : Element :=
  ⟨"frame", [("name", "F")],
    [⟨"size", [("name", "s")], [⟨"int", [("name", "S"), ("type", "uint16")], [], "", 3⟩], "", 2⟩,
      ⟨"layers", [],
        [⟨"checksum", [("name", "c"), ("alg", "crc-32"), ("until", "p")],
            [⟨"int", [("name", "C"), ("type", "uint32")], [], "", 6⟩], "", 5⟩,
          ⟨"id", [("name", "i")],
            [⟨"int", [("name", "I"), ("type", "uint8")], [], "", 8⟩], "", 7⟩], "", 4⟩,
      ⟨"payload", [("name", "p")], [], "", 9⟩], "", 1⟩

theorem checkedFrame_composed : ∃ f,
    (Frame.read ⟨[], 0, .little, ""⟩ checkedFrame).result = .ok f ∧
      f.layers.map (fun l => (l.kind.tag, l.name)) =
        [("size", "s"), ("checksum", "c"), ("id", "i"), ("payload", "p")] ∧
      Composed f.layers ∧ ∃ l, f.payload? = some l := by
  have heval : (Frame.read ⟨[], 0, .little, ""⟩ checkedFrame).result.toOption.map
      (fun f => f.layers.map fun l => (l.kind.tag, l.name)) =
        some [("size", "s"), ("checksum", "c"), ("id", "i"), ("payload", "p")] := by
    decide +kernel
  obtain ⟨f, hread, heval⟩ := Option.map_eq_some_iff.mp heval
  have hread := toOption_eq_some.mp hread
  obtain ⟨-, hcomposed, hpayload, -⟩ :=
    (frames_are_composed ⟨[], 0, .little, ""⟩ checkedFrame).2 f hread
  exact ⟨f, hread, heval, hcomposed, hpayload⟩

end Frame

end WireSchema
