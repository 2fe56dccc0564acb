import Mathlib.Data.Finset.Prod
import Mathlib.Data.Fintype.Prod
import WireSchema.Proofs.Field.Declared
import WireSchema.Proofs.Field.Law
import WireSchema.Proofs.Field.Rereading
import WireSchema.Proofs.Finding.Refinement

/-! # How deep reading goes

Reading an element comes to elements inside of it and inside of those that it reuses
(`Context.Knows`). A window only narrows on the way inside, and each of its ends is given by one of
these elements: it has only some room left (`Window.room`). In one window, an element that is read
inside of itself is read so without end. So there is a bound on the levels of a reading that ends,
and `Context.depth` is at least as large (`readField_depth`). -/

namespace WireSchema

open Markup

/-! ### Sets that grow -/

/-- If what has the property is no more in one step than in the one before, it is no more from then
on. Then all that ever has it has it after as many steps as there are items. -/
theorem mem_of_stable {α : Type} {xs : Finset α} {P : Nat → α → Prop}
    (hgrows : ∀ n, ∀ x ∈ xs, P n x → P (n + 1) x)
    (hstable : ∀ n, (∀ x ∈ xs, P (n + 1) x → P n x) → ∀ x ∈ xs, P (n + 2) x → P (n + 1) x)
    {n : Nat} {x : α} (hx : x ∈ xs) (h : P n x) : P xs.card x := by
  classical
  have hstep (n : Nat) : xs.filter (P n) ⊆ xs.filter (P (n + 1)) :=
    Finset.monotone_filter_right _ fun x hx => hgrows n x hx
  have hmono : Monotone fun n => xs.filter (P n) := monotone_nat_of_le_succ hstep
  have hcard : (xs.filter (P (max n xs.card))).card = (xs.filter (P xs.card)).card := by
    refine Nat.stabilises_of_monotone (f := fun n => (xs.filter (P n)).card)
      (fun m n hmn => Finset.card_le_card (hmono hmn)) (fun m => Finset.card_filter_le _ _)
      (fun m hm => ?_) (Nat.le_max_right _ _)
    have heq := Finset.eq_of_subset_of_card_le (hstep m) hm.symm.le
    refine congrArg Finset.card (Finset.Subset.antisymm (hstep (m + 1)) fun x hx => ?_)
    rw [Finset.mem_filter] at hx ⊢
    refine ⟨hx.1, hstable m (fun y hy hP => ?_) x hx.1 hx.2⟩
    exact (Finset.mem_filter.mp (heq ▸ Finset.mem_filter.mpr ⟨hy, hP⟩)).2
  have heq : xs.filter (P xs.card) = xs.filter (P (max n xs.card)) :=
    Finset.eq_of_subset_of_card_le (hmono (Nat.le_max_right n xs.card)) hcard.le
  have hmem : x ∈ xs.filter (P (max n xs.card)) :=
    hmono (Nat.le_max_left n xs.card) (Finset.mem_filter.mpr ⟨hx, h⟩)
  exact (Finset.mem_filter.mp (heq ▸ hmem)).2

/-! ### Elements that are known -/

namespace Markup.Element

mutual

/-- The elements of the tree. -/
def parts : Element → List Element
  | ⟨tag, attrs, children, text, line⟩ => ⟨tag, attrs, children, text, line⟩ :: partsAll children

/-- The elements of the trees. -/
def partsAll : List Element → List Element
  | [] => []
  | e :: es => e.parts ++ partsAll es

end

mutual

theorem length_parts : ∀ e : Element, e.parts.length = e.size
  | ⟨tag, attrs, children, text, line⟩ => by
    rw [parts, size, List.length_cons, length_partsAll]

theorem length_partsAll : ∀ es : List Element, (partsAll es).length = sizeAll es
  | [] => rfl
  | e :: es => by rw [partsAll, sizeAll, List.length_append, length_parts, length_partsAll]

end

variable {e c : Element} {es : List Element}

theorem mem_parts_self (e : Element) : e ∈ e.parts := by
  obtain ⟨tag, attrs, children, text, line⟩ := e
  rw [parts]
  exact List.mem_cons_self

theorem mem_partsAll : c ∈ partsAll es ↔ ∃ e ∈ es, c ∈ e.parts := by
  induction es with
  | nil => simp [partsAll]
  | cons e es ih => rw [partsAll, List.mem_append, ih, List.exists_mem_cons_iff]

theorem mem_parts_iff : c ∈ e.parts ↔ c = e ∨ ∃ d ∈ e.children, c ∈ d.parts := by
  obtain ⟨tag, attrs, children, text, line⟩ := e
  rw [parts, List.mem_cons, mem_partsAll]

theorem mem_parts_trans {root : Element} (h : e ∈ root.parts) (hc : c ∈ e.parts) :
    c ∈ root.parts := by
  induction root using nested_induction with
  | step root ih =>
    rcases mem_parts_iff.mp h with rfl | ⟨d, hd, h⟩
    · exact hc
    · exact mem_parts_iff.mpr (Or.inr ⟨d, hd, ih d hd h⟩)

theorem mem_parts_of_mem_children {root : Element} (h : e ∈ root.parts) (hc : c ∈ e.children) :
    c ∈ root.parts :=
  mem_parts_trans h (mem_parts_iff.mpr (Or.inr ⟨c, hc, mem_parts_self c⟩))

theorem Inner.mem_parts (h : e.Inner c) : c ∈ e.parts := by
  obtain ⟨-, hc | ⟨w, hw, hc⟩⟩ := h
  · exact mem_parts_of_mem_children (mem_parts_self e) hc
  · exact mem_parts_of_mem_children (mem_parts_of_mem_children (mem_parts_self e) hw) hc

/-- The value that the element gives of the property: as an attribute, or as the property itself. -/
def given (key : String) (e : Element) : Option String :=
  if e.tag = key then e.propertyValue? else e.attr key

end Markup.Element

/-- The elements have their children and all bases among them. -/
structure Context.Knows (ctx : Context) (known : List Element) : Prop where
  children : ∀ e ∈ known, ∀ c ∈ e.children, c ∈ known
  bases : ∀ b ∈ ctx.bases, b.2 ∈ known

/-- The elements that reading a part of `owner` can come to. -/
def Context.known (ctx : Context) (owner : Element) : List Element :=
  owner.parts ++ Element.partsAll (ctx.bases.map (·.2))

namespace Context

variable {ctx : Context} {owner e c merged : Element} {known : List Element}

theorem knows_known (ctx : Context) (owner : Element) : ctx.Knows (ctx.known owner) where
  children e he c hc := by
    rcases List.mem_append.mp he with he | he
    · exact List.mem_append_left _ (Element.mem_parts_of_mem_children he hc)
    · obtain ⟨b, hb, he⟩ := Element.mem_partsAll.mp he
      exact List.mem_append_right _
        (Element.mem_partsAll.mpr ⟨b, hb, Element.mem_parts_of_mem_children he hc⟩)
  bases b hb := List.mem_append_right _
    (Element.mem_partsAll.mpr ⟨b.2, List.mem_map_of_mem hb, Element.mem_parts_self _⟩)

theorem length_known (ctx : Context) (owner : Element) :
    (ctx.known owner).length = owner.size + Element.sizeAll (ctx.bases.map (·.2)) := by
  rw [known, List.length_append, Element.length_parts, Element.length_partsAll]

theorem Knows.inner (hk : ctx.Knows known) (he : e ∈ known) (hmerge : ctx.merge e = .ok merged)
    (hc : merged.Inner c) : c ∈ known := by
  have hchildren : ∀ d ∈ merged.children, d ∈ known := by
    obtain ⟨kind, -, rfl | ⟨_, ⟨b, hb, rfl⟩, -, rfl⟩⟩ := merge_eq_ok hmerge
    · exact hk.children merged he
    · intro d hd
      rcases List.mem_append.mp hd with hd | hd
      · exact hk.children b.2 (hk.bases b hb) d (List.mem_filter.mp hd).1
      · exact hk.children e he d hd
  obtain ⟨-, hc | ⟨w, hw, hc⟩⟩ := hc
  · exact hchildren c hc
  · exact hk.children w (hchildren w hw) c hc

/-- A property of a field is given by an element. -/
theorem Knows.exists_given_of_all (hk : ctx.Knows known) (he : e ∈ known) {key value : String}
    (htag : e.tag ≠ key) {names : List String} (h : (e.props names).all key = [value]) :
    ∃ x ∈ known, x.given key = some value := by
  rw [Element.all_props, List.append_eq_singleton_iff] at h
  rcases h with ⟨-, hchild⟩ | ⟨hattr, -⟩
  · have hmem : value ∈ [value] := List.mem_singleton_self _
    rw [← hchild, List.mem_filterMap] at hmem
    obtain ⟨c, hc, hvalue⟩ := hmem
    obtain ⟨hc, hkey⟩ := List.mem_filter.mp hc
    refine ⟨c, hk.children e he c hc, ?_⟩
    rw [Element.given, if_pos (beq_iff_eq.mp (Bool.and_eq_true_iff.mp hkey).2), hvalue]
  · refine ⟨e, he, ?_⟩
    rw [Element.given, if_neg htag, Element.attr, ← List.head?_filter, ← List.head?_map, hattr]
    rfl

/-- So it is if the field is merged with the one that it reuses. -/
theorem Knows.exists_given (hk : ctx.Knows known) (he : e ∈ known)
    (hmerge : ctx.merge e = .ok merged) {kind : FieldKind}
    (hkind : FieldKind.ofTag? merged.tag = some kind) {key value : String}
    (hkey : FieldKind.ofTag? key = none) (hreuse : key ≠ "reuse")
    (h : (merged.props kind.properties).single key = .ok (some value)) :
    ∃ x ∈ known, x.given key = some value := by
  have hall : (merged.props kind.properties).all key = [value] := by
    rw [Props.single_eq] at h
    split_ifs at h with hlong
    obtain ⟨rest, hrest⟩ := List.head?_eq_some_iff.mp (Except.ok.inj h)
    rw [hrest, List.length_cons] at hlong
    rw [hrest, List.length_eq_zero_iff.mp (by omega : rest.length = 0)]
  obtain ⟨kind', hkind', hcases⟩ := merge_eq_ok hmerge
  have htag : e.tag ≠ key := by
    rintro rfl
    cases hkey.symm.trans hkind'
  rcases hcases with rfl | ⟨_, ⟨b, hb, rfl⟩, hb', rfl⟩
  · exact hk.exists_given_of_all he htag hall
  · obtain rfl : kind' = kind := Option.some.inj (hkind'.symm.trans hkind)
    rw [Element.all_inheritFrom hreuse] at hall
    split_ifs at hall
    · exact hk.exists_given_of_all he htag hall
    · exact hk.exists_given_of_all (hk.bases b hb) (hb' ▸ htag) hall

end Context

/-! ### Windows on the way inside -/

/-- The versions that the elements give for the property. -/
def versionsGiven (known : List Element) (key : String) : Finset Nat :=
  (known.filterMap fun e => (e.given key).bind Literal.word32?).toFinset

theorem card_versionsGiven_le (known : List Element) (key : String) :
    (versionsGiven known key).card ≤ known.length :=
  (List.toFinset_card_le _).trans (List.length_filterMap_le _ _)

/-- How often the window can still become narrower: the number of later beginnings and of earlier
ends that elements give. -/
def Window.room (known : List Element) (w : Window) : Nat :=
  ((versionsGiven known "sinceVersion").filter (w.since < ·)).card +
    ((versionsGiven known "deprecated").filter (· < w.deprecated)).card

namespace Window

variable {known : List Element} {w parent : Window}

theorem room_le (known : List Element) (w : Window) : w.room known ≤ 2 * known.length := by
  rw [room, Nat.two_mul]
  exact Nat.add_le_add ((Finset.card_filter_le _ _).trans (card_versionsGiven_le _ _))
    ((Finset.card_filter_le _ _).trans (card_versionsGiven_le _ _))

/-- A window that is narrower than that of its parent has less room left. -/
theorem room_lt (hsince : w.since = parent.since ∨ w.since ∈ versionsGiven known "sinceVersion")
    (hdeprecated : w.deprecated = parent.deprecated ∨
      w.deprecated ∈ versionsGiven known "deprecated")
    (hbegin : parent.since ≤ w.since) (hend : w.deprecated ≤ parent.deprecated)
    (hne : w ≠ parent) : w.room known < parent.room known := by
  have hsub : (versionsGiven known "sinceVersion").filter (w.since < ·) ⊆
      (versionsGiven known "sinceVersion").filter (parent.since < ·) :=
    Finset.monotone_filter_right _ fun _ _ => hbegin.trans_lt
  have hsub' : (versionsGiven known "deprecated").filter (· < w.deprecated) ⊆
      (versionsGiven known "deprecated").filter (· < parent.deprecated) :=
    Finset.monotone_filter_right _ fun _ _ h => lt_of_lt_of_le h hend
  unfold room
  by_cases hsame : w.since = parent.since
  · have hlt : w.deprecated < parent.deprecated := by
      refine lt_of_le_of_ne hend fun hsame' => hne ?_
      obtain ⟨since, deprecated⟩ := w
      obtain rfl : since = parent.since := hsame
      obtain rfl : deprecated = parent.deprecated := hsame'
      rfl
    have hmem := hdeprecated.resolve_left hlt.ne
    refine Nat.add_lt_add_of_le_of_lt (Finset.card_le_card hsub) (Finset.card_lt_card ?_)
    refine ⟨hsub', fun h => ?_⟩
    have hself := h (Finset.mem_filter.mpr ⟨hmem, hlt⟩)
    exact lt_irrefl _ (Finset.mem_filter.mp hself).2
  · have hlt : parent.since < w.since := lt_of_le_of_ne hbegin (Ne.symm hsame)
    have hmem := hsince.resolve_left hsame
    refine Nat.add_lt_add_of_lt_of_le (Finset.card_lt_card ?_) (Finset.card_le_card hsub')
    refine ⟨hsub, fun h => ?_⟩
    have hself := h (Finset.mem_filter.mpr ⟨hmem, hlt⟩)
    exact lt_irrefl _ (Finset.mem_filter.mp hself).2

end Window

section
variable {ctx : Context} {known : List Element} {e merged : Element} {pos : Position}
  {kind : FieldKind} {core : FieldCore}

/-- **The window of a field is that of its parent, or it has less room left.** -/
theorem Context.Knows.room_lt (hk : ctx.Knows known) (he : e ∈ known)
    (hmerge : ctx.merge e = .ok merged) (hkind : FieldKind.ofTag? merged.tag = some kind)
    (hcore : readCore ctx pos (merged.props kind.properties) merged = .ok core) :
    core.window = pos.parent ∨ core.window.room known < pos.parent.room known := by
  obtain ⟨-, -, hwindow, -⟩ := readCore_eq_ok.mp hcore
  unfold Window.read at hwindow
  obtain ⟨since, hsince, hwindow⟩ := bind_eq_ok.mp hwindow
  obtain ⟨deprecated, hdeprecated, hwindow⟩ := bind_eq_ok.mp hwindow
  obtain ⟨hw, -, hbegin, -, hend⟩ := Window.within_eq_ok hwindow
  rw [hw]
  have hgives {key : String} {absent v : Nat} (hkey : FieldKind.ofTag? key = none)
      (hreuse : key ≠ "reuse")
      (h : (merged.props kind.properties).parsedD key Literal.word32? absent = .ok v) :
      v = absent ∨ v ∈ versionsGiven known key := by
    obtain ⟨given, hgiven, rfl⟩ := parsedD_eq_ok.mp h
    cases given with
    | none => exact Or.inl rfl
    | some v =>
      obtain ⟨s, hs, hread⟩ := parsed_eq_some.mp hgiven
      obtain ⟨x, hx, hvalue⟩ := hk.exists_given he hmerge hkind hkey hreuse hs
      refine Or.inr (List.mem_toFinset.mpr (List.mem_filterMap.mpr ⟨x, hx, ?_⟩))
      rw [hvalue]
      exact hread
  by_cases hne : (⟨since, deprecated⟩ : Window) = pos.parent
  · exact Or.inl hne
  · exact Or.inr (Window.room_lt (hgives (by decide) (by decide) hsince)
      (hgives (by decide) (by decide) hdeprecated) hbegin hend hne)

end

/-! ### Levels -/

/-- A level more keeps what reading came to without it. -/
theorem refines_readField_succ (ctx : Context) (levels : Nat) (pos : Position) (e : Element) :
    (readField ctx levels pos e).Refines (readField ctx (levels + 1) pos e) := by
  induction levels generalizing pos e with
  | zero => exact Pass.refines_endless _
  | succ levels ih =>
    refine Pass.refines_bind fun merged _ => ?_
    exact Pass.refines_law.related_readMerged fun _ _ _ _ pos c _ _ _ => ih pos c

theorem refines_readField (ctx : Context) {m n : Nat} (hmn : m ≤ n) (pos : Position)
    (e : Element) : (readField ctx m pos e).Refines (readField ctx n pos e) := by
  induction hmn with
  | refl => exact Pass.refines_rfl _
  | step _ ih => exact ih.trans (refines_readField_succ ctx _ pos e)

/-- So many levels are enough in the window: a known element whose reading ends with any number of
levels ends with these. -/
def Context.Enough (ctx : Context) (known : List Element) (levels : Nat) (w : Window) : Prop :=
  ∀ bit, ∀ e ∈ known, ∀ n, (readField ctx n ⟨w, false, bit⟩ e).Ends →
    (readField ctx levels ⟨w, false, bit⟩ e).Ends

section
variable {ctx : Context} {known : List Element} {w : Window} {m n : Nat} {bit : Bool} {e : Element}

theorem Context.Enough.mono (h : ctx.Enough known m w) (hmn : m ≤ n) : ctx.Enough known n w :=
  fun bit e he k hends => (refines_readField ctx hmn _ e).ends (h bit e he k hends)

theorem Context.Enough.refines (h : ctx.Enough known m w) (he : e ∈ known) (n : Nat) :
    (readField ctx n ⟨w, false, bit⟩ e).Refines (readField ctx m ⟨w, false, bit⟩ e) := by
  intro hends
  rw [← refines_readField ctx (Nat.le_max_left m n) _ e (h bit e he n hends)]
  exact refines_readField ctx (Nat.le_max_right m n) _ e hends

/-- Let the levels be enough where there is less room. If a level more makes no more elements end in
the window, then neither does the next one. -/
theorem Context.Knows.refines_of_stable (hk : ctx.Knows known)
    (hnarrower : ∀ v : Window, v.room known < w.room known → ctx.Enough known n v)
    (hstable : ∀ bit, ∀ c ∈ known, (readField ctx (n + 1) ⟨w, false, bit⟩ c).Ends →
      (readField ctx n ⟨w, false, bit⟩ c).Ends)
    (he : e ∈ known) :
    (readField ctx (n + 2) ⟨w, false, bit⟩ e).Refines
      (readField ctx (n + 1) ⟨w, false, bit⟩ e) := by
  refine Pass.refines_bind fun merged hmerge => ?_
  refine Pass.refines_law.related_readMerged fun kind core hkind hcore => ?_
  rw [Pass.result_liftM_eq_ok] at hmerge
  rintro ⟨_, _, bit'⟩ c rfl rfl hc
  have hknown := hk.inner he hmerge hc
  rcases hk.room_lt he hmerge hkind hcore with hwindow | hroom
  · intro hends
    rw [hwindow] at hends ⊢
    exact (refines_readField_succ ctx n _ c (hstable bit' c hknown hends)).symm
  · exact (hnarrower _ hroom).refines hknown _

/-- In a window, there are two levels more for each element than where there is less room. -/
theorem Context.Knows.enough_add (hk : ctx.Knows known)
    (hnarrower : ∀ v : Window, v.room known < w.room known → ctx.Enough known m v) :
    ctx.Enough known (m + 2 * known.length) w := by
  classical
  intro bit e he n hends
  -- of the elements, in a bitfield or not, there are more that end with each level, or never more
  let states : Finset (Element × Bool) := known.toFinset ×ˢ Finset.univ
  have hcard : states.card ≤ 2 * known.length := by
    rw [Finset.card_product, Finset.card_univ, Fintype.card_bool, Nat.mul_comm]
    exact Nat.mul_le_mul_left 2 (List.toFinset_card_le known)
  have hstate : (e, bit) ∈ states := by simpa [states] using he
  have hmem : (readField ctx (m + states.card) ⟨w, false, bit⟩ e).Ends := by
    refine mem_of_stable (P := fun k x => (readField ctx (m + k) ⟨w, false, x.2⟩ x.1).Ends)
      (fun k x _ => (refines_readField_succ ctx (m + k) _ x.1).ends) (fun k hstable x hx => ?_)
      hstate ((refines_readField ctx (Nat.le_add_left n m) _ e).ends hends)
    refine (hk.refines_of_stable (n := m + k)
      (fun v hv => (hnarrower v hv).mono (Nat.le_add_right m k))
      (fun bit c hc => hstable (c, bit) ?_) ?_).ends
    · simpa [states] using hc
    · simpa [states] using hx
  exact (refines_readField ctx (Nat.add_le_add_left hcard m) _ e).ends hmem

/-- **The room that a window has left bounds the levels of a reading that ends.** -/
theorem Context.Knows.enough (hk : ctx.Knows known) (w : Window) :
    ctx.Enough known (2 * known.length * (w.room known + 1)) w := by
  induction hroom : w.room known using Nat.strong_induction_on generalizing w with
  | _ room ih =>
    rw [Nat.mul_succ]
    refine hk.enough_add fun v hv => (ih _ (hroom ▸ hv) v rfl).mono ?_
    exact Nat.mul_le_mul_left _ (hroom ▸ hv)

end

section
variable {ctx : Context} {owner e merged : Element} {pos : Position} {n : Nat}

/-- **`Context.depth` is enough** for each part of the element that is read: if its reading ends
with some number of levels, it is the same with this one. -/
theorem readField_depth (he : e ∈ ctx.known owner) (htop : pos.topLevel = false)
    (h : (readField ctx n pos e).Ends) :
    readField ctx (ctx.depth owner) pos e = readField ctx n pos e := by
  obtain ⟨w, _, bit⟩ := pos
  subst htop
  have hlevels : 2 * (ctx.known owner).length * (w.room (ctx.known owner) + 1) ≤
      ctx.depth owner := by
    have hroom := w.room_le (ctx.known owner)
    rw [Context.length_known] at hroom ⊢
    exact Nat.mul_le_mul_left _ (Nat.succ_le_succ hroom)
  exact (((ctx.knows_known owner).enough w).mono hlevels).refines he n h

/-- So an element that is not read with these levels is not read with any. -/
theorem readField_depth_eq_endless (he : e ∈ ctx.known owner) (htop : pos.topLevel = false) :
    (readField ctx (ctx.depth owner) pos e).result = .error .endless ↔
      ∀ n, (readField ctx n pos e).result = .error .endless := by
  refine ⟨fun h n => ?_, fun h => h _⟩
  by_contra hends
  rw [readField_depth he htop hends] at h
  exact hends h

/-- Inside of an element that is not a field, reading has the levels that it needs. -/
theorem readInside_of_ends (hc : owner.Inner e) (htop : pos.topLevel = false)
    (h : (readField ctx n pos e).Ends) : readInside ctx owner pos e = readField ctx n pos e :=
  readField_depth (List.mem_append_left _ hc.mem_parts) htop h

/-- A field of a namespace has the levels that it needs. -/
theorem readMerged_depth (hmerge : ctx.merge e = .ok merged)
    (h : (readMerged ctx (readField ctx n) pos merged).Ends) :
    readMerged ctx (readField ctx (ctx.depth e)) pos merged =
      readMerged ctx (readField ctx n) pos merged := by
  refine Pass.refines_law.related_readMerged (fun _ _ _ _ pos c _ htop hc hends => ?_) h
  have hknown : c ∈ ctx.known e :=
    (ctx.knows_known e).inner (List.mem_append_left _ (Element.mem_parts_self e)) hmerge hc
  exact readField_depth hknown htop hends

end

end WireSchema
