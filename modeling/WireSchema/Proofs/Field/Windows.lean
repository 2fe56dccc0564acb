import WireSchema.Message
import WireSchema.Proofs.Field.Declared
import WireSchema.Proofs.Field.Inside

/-! # Windows inside windows

Messages, fields, named values and bits have windows. What stands directly inside of one of them
(`Versioned.inner`) is read with its window as that of the parent. So each reader gives an item
whose window lies inside that of its parent, and so on at every depth (`givesIn_readField`): what
stands inside exists, and is admitted by a gate, only where that which it stands in is
(`Window.Inside.contains`, `Gate.admits_parent`). -/

namespace WireSchema

open Markup Relation

/-! ### Windows and gates -/

/-- The window lies inside of that of the parent, has a version in it, and begins within the
schema. -/
structure Window.Inside (w parent : Window) (version : Nat) : Prop where
  since_le_version : w.since ≤ version
  parent_since_le : parent.since ≤ w.since
  since_lt_deprecated : w.since < w.deprecated
  deprecated_le_parent : w.deprecated ≤ parent.deprecated

namespace Window

variable {w parent outer : Window} {version : Nat}

theorem contains_iff {v : Nat} : w.contains v = true ↔ w.since ≤ v ∧ v < w.deprecated := by
  simp only [contains, Bool.and_eq_true, decide_eq_true_eq]

theorem inside_of_read {name : String} {props : Props}
    (h : Window.read name props parent version = .ok w) : w.Inside parent version := by
  obtain ⟨since, -, h⟩ := bind_eq_ok.mp h
  obtain ⟨deprecated, -, h⟩ := bind_eq_ok.mp h
  obtain ⟨rfl, hversion, hparent, hlt, hdeprecated⟩ := within_eq_ok h
  exact ⟨hversion, hparent, hlt, hdeprecated⟩

theorem Inside.self (h : w.Inside parent version) : w.Inside w version :=
  ⟨h.since_le_version, Nat.le_refl _, h.since_lt_deprecated, Nat.le_refl _⟩

theorem Inside.trans (h : w.Inside parent version) (h' : parent.Inside outer version) :
    w.Inside outer version := by
  have hsince := h'.parent_since_le
  have hdeprecated := h'.deprecated_le_parent
  obtain ⟨hversion, hparent, hlt, hle⟩ := h
  exact ⟨hversion, by omega, hlt, by omega⟩

theorem Inside.contains (h : w.Inside parent version) {v : Nat} (hv : w.contains v = true) :
    parent.contains v = true := by
  have hsince := h.parent_since_le
  have hdeprecated := h.deprecated_le_parent
  rw [contains_iff] at hv ⊢
  omega

end Window

namespace Gate

variable {g : Gate} {w parent : Window} {version : Nat}

theorem admits_iff : g.admits w = true ↔
    w.since ≤ g.version ∧ g.minRemoteVersion < w.deprecated := by
  simp only [admits, Bool.and_eq_true, decide_eq_true_eq]

/-- **A gate admits a window that is not empty if and only if it has begun at the version in effect
and some version of the other end that is supported lies in it.** -/
theorem admits_iff_exists_remote (h : w.since < w.deprecated) : g.admits w = true ↔
    w.since ≤ g.version ∧ ∃ remote, g.minRemoteVersion ≤ remote ∧ w.contains remote = true := by
  rw [admits_iff]
  refine and_congr_right fun _ => ?_
  constructor
  · intro hlt
    refine ⟨max w.since g.minRemoteVersion, by omega, ?_⟩
    rw [Window.contains_iff]
    omega
  · rintro ⟨remote, hremote, hcontains⟩
    rw [Window.contains_iff] at hcontains
    omega

theorem admits_parent (h : w.Inside parent version) (hw : g.admits w = true) :
    g.admits parent = true := by
  have hsince := h.parent_since_le
  have hdeprecated := h.deprecated_le_parent
  rw [admits_iff] at hw ⊢
  omega

end Gate

/-! ### What has a window -/

/-- A part of a schema with a window. -/
inductive Versioned
  | message (m : Message)
  | field (f : Field)
  | integer (v : Special Int)
  | real (v : Special Float)
  | bit (b : SetBit)

/-- The values and bits that the body of a field names. -/
def Body.values : Body → List Versioned
  | .int f => f.specials.map .integer
  | .float f => f.specials.map .real
  | .enum f => f.values.map .integer
  | .set f => f.bits.map .bit
  | _ => []

namespace Versioned

/-- The window of the part. -/
def window : Versioned → Window
  | message m => m.window
  | field f => f.window
  | integer v => v.window
  | real v => v.window
  | bit b => b.window

/-- The parts that stand directly inside: the fields of a message; the fields inside of a field,
and the values that it names. -/
def inner : Versioned → List Versioned
  | message m => m.fields.map .field
  | field f => f.inner.map .field ++ f.body.values
  | _ => []

/-- `y` is `x`, or it stands inside of `x` at any depth. -/
def Within (y x : Versioned) : Prop := ReflTransGen (fun x y => y ∈ x.inner) x y

/-- The window lies inside of that of the parent, and so do the windows of all parts within, each
in that of the part that it stands in. -/
def SitsIn (parent : Window) (version : Nat) (x : Versioned) : Prop :=
  x.window.Inside parent version ∧
    ∀ y : Versioned, y.Within x → ∀ z ∈ y.inner, z.window.Inside y.window version

variable {parent outer : Window} {version : Nat} {x y : Versioned}

theorem sitsIn_iff : x.SitsIn parent version ↔
    x.window.Inside parent version ∧ ∀ z ∈ x.inner, z.SitsIn x.window version := by
  constructor
  · rintro ⟨hx, hall⟩
    exact ⟨hx, fun z hz =>
      ⟨hall x ReflTransGen.refl z hz, fun y hy => hall y (ReflTransGen.head hz hy)⟩⟩
  · rintro ⟨hx, hall⟩
    refine ⟨hx, fun y hy => ?_⟩
    rcases ReflTransGen.cases_head hy with rfl | ⟨z, hz, hy⟩
    · exact fun z hz => (hall z hz).1
    · exact (hall z hz).2 y hy

theorem SitsIn.mono (h : x.SitsIn parent version) (hparent : parent.Inside outer version) :
    x.SitsIn outer version :=
  ⟨h.1.trans hparent, h.2⟩

/-- A part within sits in the window of each part that it stands in. -/
theorem SitsIn.of_within (h : x.SitsIn parent version) (hy : y.Within x) :
    y.SitsIn x.window version := by
  have hself : x.SitsIn x.window version := ⟨h.1.self, h.2⟩
  unfold Within at hy
  induction hy with
  | refl => exact hself
  | tail hxy hz ih => exact ((sitsIn_iff.mp ih).2 _ hz).mono ih.1

theorem inner_of_mem_values {b : Body} (h : x ∈ b.values) : x.inner = [] := by
  cases b <;> simp only [Body.values, List.mem_map, List.not_mem_nil] at h
  all_goals
    obtain ⟨v, -, rfl⟩ := h
    rfl

theorem sitsIn_of_mem_values {b : Body} (h : x ∈ b.values)
    (hx : x.window.Inside parent version) : x.SitsIn parent version := by
  refine sitsIn_iff.mpr ⟨hx, fun z hz => ?_⟩
  rw [inner_of_mem_values h] at hz
  exact absurd hz List.not_mem_nil

/-- A change that reaches the fields inside and leaves windows and values as they are. -/
theorem sitsIn_field_iff_of_inner {step : Field → Field}
    (hwindow : ∀ f, (step f).window = f.window)
    (hvalues : ∀ f, (step f).body.values = f.body.values)
    (hinner : ∀ f, (step f).inner = f.inner.map step) (f : Field) :
    (field (step f)).SitsIn parent version ↔ (field f).SitsIn parent version := by
  induction f using Field.nested_induction generalizing parent with
  | step f ih =>
    rw [sitsIn_iff, sitsIn_iff]
    have hw : (field (step f)).window = (field f).window := hwindow f
    rw [hw]
    refine and_congr_right fun _ => ?_
    simp only [inner, hinner, hvalues, List.map_map, List.forall_mem_append, List.forall_mem_map,
      Function.comp_apply]
    exact and_congr_left fun _ => forall₂_congr fun g hg => ih g hg

end Versioned

/-! ### Values that are read -/

section
variable {ctx : Context} {core : FieldCore} {pos : Position} {props : Props} {e : Element}

theorem inside_of_readSpecial {α : Type} {read : String → Option α} {known : List (Special α)}
    {v : Special α} (h : readSpecial ctx core read known e = .ok v) :
    v.window.Inside core.window ctx.schemaVersion :=
  Window.inside_of_read (readSpecial_ok ctx core e h).2

theorem inside_of_readSpecials {α : Type} {read : String → Option α} {vs : List (Special α)}
    (h : readSpecials ctx core read e = .ok vs) :
    ∀ v ∈ vs, v.window.Inside core.window ctx.schemaVersion :=
  forall_mem_foldlM (fun _ _ _ => inside_of_readSpecial) h fun _ hv => absurd hv List.not_mem_nil

theorem yields_inside_readEnumValue (f : EnumField) :
    (readEnumValue ctx core f e).Yields fun v =>
      v.window.Inside core.window ctx.schemaVersion := by
  intro v hv
  have htakes := takes_of_readEnumValue ctx core e (Pass.endsWith_false.mpr hv)
  exact Window.inside_of_read htakes.window

theorem yields_inside_readEnum : (readEnum ctx core pos props e).Yields fun f =>
    ∀ v ∈ f.values, v.window.Inside core.window ctx.schemaVersion := by
  refine (yields_readEnum ctx core pos props e).imp fun f h v hv => ?_
  obtain ⟨g, child, hread⟩ := h.values v hv
  exact yields_inside_readEnumValue g v hread

theorem inside_of_readSetBit {f : SetField} {b : SetBit} (h : readSetBit ctx core f e = .ok b) :
    b.window.Inside core.window ctx.schemaVersion :=
  Window.inside_of_read (takes_of_readSetBit ctx core e h).window

theorem yields_inside_readSet : (readSet ctx core pos props e).Yields fun f =>
    ∀ b ∈ f.bits, b.window.Inside core.window ctx.schemaVersion := by
  refine (yields_readSet ctx core pos props e).imp fun f h b hb => ?_
  obtain ⟨g, child, hread⟩ := h.named b hb
  exact inside_of_readSetBit hread

theorem yields_inside_readInt : (readInt ctx core pos props e).Yields fun f =>
    ∀ v ∈ f.specials, v.window.Inside core.window ctx.schemaVersion :=
  (yields_readInt ctx core pos props e).imp fun _ h => inside_of_readSpecials h.specials

theorem inside_of_readFloat {f : FloatField} (h : readFloat ctx core props e = .ok f) :
    ∀ v ∈ f.specials, v.window.Inside core.window ctx.schemaVersion := by
  unfold readFloat at h
  obtain ⟨rawType, -, h⟩ := bind_eq_ok.mp h
  split at h
  · obtain ⟨_, -, h⟩ := bind_eq_ok.mp h
    obtain ⟨specials, hspecials, h⟩ := bind_eq_ok.mp h
    obtain ⟨_, -, h⟩ := bind_eq_ok.mp h
    obtain ⟨_, -, h⟩ := bind_eq_ok.mp h
    obtain ⟨given, -, h⟩ := bind_eq_ok.mp h
    have hs := inside_of_readSpecials hspecials
    cases given with
    | none =>
      obtain ⟨_, -, h⟩ := bind_eq_ok.mp h
      obtain ⟨_, -, h⟩ := bind_eq_ok.mp h
      obtain ⟨_, -, h⟩ := bind_eq_ok.mp h
      cases h
      exact hs
    | some v =>
      obtain ⟨_, -, h⟩ := bind_eq_ok.mp h
      obtain ⟨_, -, h⟩ := bind_eq_ok.mp h
      obtain ⟨_, -, h⟩ := bind_eq_ok.mp h
      obtain ⟨_, -, h⟩ := bind_eq_ok.mp h
      cases h
      exact hs
  · cases h

/-- **The windows of the values that a body names lie inside of that of the field.** -/
theorem yields_inside_readBody (nested : NestedReader) (kind : FieldKind) :
    (readBody ctx nested kind core pos props e).Yields fun body =>
      ∀ x ∈ body.values, x.window.Inside core.window ctx.schemaVersion := by
  have hnone (h : kind ∉ [.int, .float, .enum, .set]) :
      (readBody ctx nested kind core pos props e).Yields fun body =>
        ∀ x ∈ body.values, x.window.Inside core.window ctx.schemaVersion := by
    have hinner : nested.GivesIn core.window fun _ => True := fun _ _ _ _ _ => trivial
    refine (yields_inner_readBody hinner kind).imp fun body hbody => ?_
    rw [← hbody.1] at h
    cases body <;> simp [Body.kind, Body.values] at h ⊢
  cases kind with
  | int =>
    exact Pass.yields_map (yields_inside_readInt.imp fun f hf => List.forall_mem_map.mpr hf)
  | float =>
    refine Pass.yields_map (Pass.yields_ofExcept fun f h => ?_)
    exact List.forall_mem_map.mpr (inside_of_readFloat h)
  | enum =>
    exact Pass.yields_map (yields_inside_readEnum.imp fun f hf => List.forall_mem_map.mpr hf)
  | set =>
    exact Pass.yields_map (yields_inside_readSet.imp fun f hf => List.forall_mem_map.mpr hf)
  | _ => exact hnone (by decide)

end

/-! ### Fields that are read -/

section
variable {ctx : Context}

theorem yields_sitsIn_readMerged {nested : NestedReader}
    (h : ∀ w, nested.GivesIn w fun f => (Versioned.field f).SitsIn w ctx.schemaVersion)
    (pos : Position) (e : Element) :
    (readMerged ctx nested pos e).Yields fun f =>
      (Versioned.field f).SitsIn pos.parent ctx.schemaVersion := by
  intro f hf
  obtain ⟨kind, -, hcore, hbody, -⟩ := readMerged_eq_ok.mp hf
  obtain ⟨-, -, hwindow, -⟩ := readCore_eq_ok.mp hcore
  refine Versioned.sitsIn_iff.mpr ⟨Window.inside_of_read hwindow, fun x hx => ?_⟩
  rcases List.mem_append.mp hx with hx | hx
  · obtain ⟨g, hg, rfl⟩ := List.mem_map.mp hx
    exact (yields_inner_readBody (h _) kind _ hbody).2 g hg
  · exact Versioned.sitsIn_of_mem_values hx (yields_inside_readBody _ _ _ hbody x hx)

/-- **A field that is read sits in the window of its parent**, and everything in it at any depth
sits in that which it stands in. -/
theorem givesIn_readField (ctx : Context) (levels : Nat) (w : Window) :
    (readField ctx levels).GivesIn w fun f =>
      (Versioned.field f).SitsIn w ctx.schemaVersion := by
  induction levels generalizing w with
  | zero => exact fun _ _ _ => Pass.yields_endless
  | succ levels ih =>
    rintro pos e rfl
    exact Pass.yields_bind fun merged => yields_sitsIn_readMerged ih pos merged

end

end WireSchema
