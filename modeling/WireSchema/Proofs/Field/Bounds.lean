import Mathlib.Algebra.Order.BigOperators.Group.List
import Mathlib.Data.Option.Basic
import WireSchema.Proofs.Field.Capped
import WireSchema.Proofs.Field.Exact
import WireSchema.Proofs.Field.Sized

/-! # Lengths of bodies are exact up to the limit

The least and the greatest length of a field, which are computed within 64 bits, cap the exact ones
if this holds of the fields inside and of those behind the references (`caps_minLengthVia`,
`caps_maxLengthVia`). In the same way the exact least length is not greater than the exact greatest
one (`Body.exactMin_le_exactMax`). -/

namespace WireSchema

/-! ### Cutting the lengths of a body -/

section caps
variable {a : Arena} {value : Field → ℕ∞} {via : FieldRef → ℕ} {via' : FieldRef → ℕ∞}
  {fs : List Field}

theorem PrefixName.caps_lengthVia {p : PrefixName} (h : ∀ r ∈ p.refs, Caps (via r) (via' r)) :
    Caps (p.lengthVia via) (p.exact via') := by
  cases p with
  | path r => exact h r (by simp [PrefixName.refs])
  | sibling name => exact caps_zero

theorem Arena.caps_prefixLimit (a : Arena) (p : Prefix) :
    Caps (a.prefixLimit p) (a.exactLimit p) := by
  unfold Arena.prefixLimit Arena.greatestCount Arena.exactLimit
  cases ((a.prefixField? p).bind a.resolved).bind Field.int? with
  | none => exact caps_unbounded
  | some i => exact caps_lengthOfInt _

theorem caps_minBytes {length : Option ℕ} {source : Option PrefixName} {suffix : ℕ}
    (hlength : ∀ n, length = some n → n ≤ unbounded) (hsuffix : suffix ≤ unbounded)
    (h : ∀ r ∈ namedRefs source, Caps (via r) (via' r)) :
    Caps (minBytes via length source suffix) (exactMinBytes via' length source suffix) := by
  unfold minBytes exactMinBytes
  cases length with
  | some n => exact caps_of_le (hlength n rfl)
  | none =>
    cases source with
    | none => exact caps_of_le hsuffix
    | some p => exact PrefixName.caps_lengthVia h

theorem caps_maxBytes {length : Option ℕ} {source : Option PrefixName}
    (hlength : ∀ n, length = some n → n ≤ unbounded)
    (h : ∀ r ∈ namedRefs source, Caps (via r) (via' r)) :
    Caps (maxBytes a via length source) (exactMaxBytes a via' length source) := by
  unfold maxBytes exactMaxBytes
  cases length with
  | some n => exact caps_of_le (hlength n rfl)
  | none =>
    cases source with
    | none => exact caps_unbounded
    | some p => exact (PrefixName.caps_lengthVia h).add (a.caps_prefixLimit _)

theorem caps_minOfPrefix {p : Option Prefix} (hown : ∀ r ∈ prefixOwnRefs p, Caps (via r) (via' r))
    (hinner : ∀ f ∈ prefixInner p, Caps (f.minLengthVia via) (value f)) :
    Caps (minOfPrefix via p) (exactOfPrefix value via' p) := by
  rcases p with _ | p
  · rw [minOfPrefix]
    exact caps_zero
  · cases p with
    | inline f =>
      rw [minOfPrefix]
      exact hinner f (by simp [prefixInner])
    | named p =>
      rw [minOfPrefix]
      exact PrefixName.caps_lengthVia hown

theorem caps_maxOfPrefix {p : Option Prefix} (hown : ∀ r ∈ prefixOwnRefs p, Caps (via r) (via' r))
    (hinner : ∀ f ∈ prefixInner p, Caps (f.maxLengthVia a via) (value f)) :
    Caps (maxOfPrefix a via p) (exactOfPrefix value via' p) := by
  rcases p with _ | p
  · rw [maxOfPrefix]
    exact caps_zero
  · cases p with
    | inline f =>
      rw [maxOfPrefix]
      exact hinner f (by simp [prefixInner])
    | named p =>
      rw [maxOfPrefix]
      exact PrefixName.caps_lengthVia hown

theorem minOfMembers_eq_foldr (via : FieldRef → ℕ) (fs : List Field) :
    minOfMembers via fs = (fs.map (Field.minLengthVia via)).foldr addLengths 0 := by
  induction fs with
  | nil =>
    rw [minOfMembers]
    rfl
  | cons f fs ih => rw [minOfMembers, ih, List.map_cons, List.foldr_cons]

theorem maxOfMembers_eq_foldr (a : Arena) (via : FieldRef → ℕ) (fs : List Field) :
    maxOfMembers a via fs = (fs.map (Field.maxLengthVia a via)).foldr addLengths 0 := by
  induction fs with
  | nil =>
    rw [maxOfMembers]
    rfl
  | cons f fs ih => rw [maxOfMembers, ih, List.map_cons, List.foldr_cons]

/-- There is a least length on both sides, or on none. -/
theorem rel_leastOfMembers (h : ∀ f ∈ fs, Caps (f.minLengthVia via) (value f)) :
    Option.Rel Caps (leastOfMembers via fs) (fs.map value).min? := by
  induction fs with
  | nil =>
    rw [leastOfMembers]
    exact Option.Rel.none
  | cons f fs ih =>
    have hf := h f List.mem_cons_self
    have hfs := ih fun g hg => h g (List.mem_cons_of_mem _ hg)
    rw [leastOfMembers, List.map_cons, List.min?_cons]
    generalize leastOfMembers via fs = least, (fs.map value).min? = exact at hfs ⊢
    cases hfs with
    | none => exact Option.Rel.some hf
    | some hn => exact Option.Rel.some (hf.min hn)

theorem caps_leastOfMembers (h : ∀ f ∈ fs, Caps (f.minLengthVia via) (value f)) :
    Caps ((leastOfMembers via fs).getD 0) ((fs.map value).min?.getD 0) := by
  have hrel := rel_leastOfMembers h
  generalize leastOfMembers via fs = least, (fs.map value).min? = exact at hrel ⊢
  cases hrel with
  | none => exact caps_zero
  | some hn => exact hn

theorem caps_greatestOfMembers (h : ∀ f ∈ fs, Caps (f.maxLengthVia a via) (value f)) :
    Caps (greatestOfMembers a via fs) ((fs.map value).foldr max 0) := by
  induction fs with
  | nil =>
    rw [greatestOfMembers]
    exact caps_zero
  | cons f fs ih =>
    rw [greatestOfMembers, List.map_cons, List.foldr_cons]
    exact (h f List.mem_cons_self).max (ih fun g hg => h g (List.mem_cons_of_mem _ hg))

theorem caps_minOfList {element countPrefix lengthPrefix own : ℕ} {x y z w : ℕ∞}
    (he : Caps element x) (hc : Caps countPrefix y) (hl : Caps lengthPrefix z) (hel : Caps own w)
    (count : Option ℕ) (counted fixed : Bool) :
    Caps (minOfList count element countPrefix lengthPrefix own counted fixed)
      (exactMinOfList count (exactEach fixed x w) (exactShared fixed w) y z counted) := by
  unfold minOfList exactMinOfList exactEach exactShared
  cases count with
  | none => cases counted <;> assumption
  | some n =>
    cases fixed with
    | true => exact hel.add (he.mul_count n)
    | false =>
      simp only [Bool.false_eq_true, if_false, zero_add]
      exact (he.add hel).mul_count n

theorem caps_maxOfList {element countPrefix lengthPrefix own : ℕ} {x y z w : ℕ∞}
    (he : Caps element x) (hc : Caps countPrefix y) (hl : Caps lengthPrefix z) (hel : Caps own w)
    (count : Option ℕ) (fixed : Bool) (c l : Option Prefix) :
    Caps
      (maxOfList count element countPrefix lengthPrefix own (c.map a.prefixLimit)
        (l.map a.prefixLimit) fixed)
      (exactMaxOfList count (exactEach fixed x w) (exactShared fixed w) y z (c.map a.exactLimit)
        (l.map a.exactLimit)) := by
  have heach : Caps (if fixed then element else addLengths element own) (exactEach fixed x w) := by
    cases fixed with
    | true => exact he
    | false => exact he.add hel
  have hshared : Caps (if fixed then own else 0) (exactShared fixed w) := by
    cases fixed with
    | true => exact hel
    | false => exact caps_zero
  rcases count with _ | n
  · rcases c with _ | c
    · rcases l with _ | l
      · exact caps_unbounded
      · exact hl.add (a.caps_prefixLimit l)
    · exact (hc.add hshared).add ((a.caps_prefixLimit c).mul heach)
  · exact hshared.add (heach.mul_count n)

/-- **The least length of a field caps the exact one** if this holds of what it asks for. -/
theorem caps_minLengthVia {f : Field} (hs : f.body.Sized)
    (hown : ∀ r ∈ f.ownRefs, Caps (via r) (via' r))
    (hinner : ∀ g ∈ f.inner, Caps (g.minLengthVia via) (value g)) :
    Caps (f.minLengthVia via) (f.body.exactMin value via') := by
  obtain ⟨core, body⟩ := f
  change ∀ r ∈ body.ownRefs, _ at hown
  change ∀ g ∈ body.inner, _ at hinner
  change body.Sized at hs
  cases body with
  | int i =>
    simp only [Field.minLengthVia]
    refine caps_of_le ?_
    unfold IntField.minLength
    split_ifs
    · exact hs.1.trans hs.2
    · exact hs.2
  | float x =>
    simp only [Field.minLengthVia]
    refine caps_of_le ?_
    cases x.type <;> decide
  | enum | set | bitfield =>
    simp only [Field.minLengthVia]
    exact caps_of_le hs
  | bundle members aliases =>
    rw [Field.minLengthVia, minOfMembers_eq_foldr]
    exact caps_foldr_addLengths hinner
  | variant members default aliases =>
    simp only [Field.minLengthVia]
    exact caps_leastOfMembers hinner
  | string s =>
    simp only [Field.minLengthVia]
    refine caps_minBytes hs ?_ hown
    split_ifs <;> decide
  | data d =>
    simp only [Field.minLengthVia]
    exact caps_minBytes hs (Nat.zero_le _) hown
  | list element count c l el fixed =>
    simp only [Body.ownRefs, Body.inner, List.forall_mem_append] at hown hinner
    obtain ⟨hoe, hoc, hol, hoel⟩ := hown
    obtain ⟨hie, hic, hil, hiel⟩ := hinner
    have hc := caps_minOfPrefix hoc hic
    have hl := caps_minOfPrefix hol hil
    have hel := caps_minOfPrefix hoel hiel
    cases element with
    | inline e =>
      simp only [Field.minLengthVia]
      exact caps_minOfList (hie e (by simp [Part.inner])) hc hl hel count c.isSome fixed
    | reference r =>
      simp only [Field.minLengthVia]
      exact caps_minOfList (hoe r (by simp [Part.ownRefs])) hc hl hel count c.isSome fixed
  | ref target bitLength =>
    simp only [Field.minLengthVia]
    exact hown target (by simp [Body.ownRefs])
  | optional o =>
    simp only [Field.minLengthVia]
    exact caps_zero

/-- **The greatest length of a field caps the exact one** if this holds of what it asks for. -/
theorem caps_maxLengthVia {f : Field} (hs : f.body.Sized)
    (hown : ∀ r ∈ f.ownRefs, Caps (via r) (via' r))
    (hinner : ∀ g ∈ f.inner, Caps (g.maxLengthVia a via) (value g)) :
    Caps (f.maxLengthVia a via) (f.body.exactMax a value via') := by
  obtain ⟨core, body⟩ := f
  change ∀ r ∈ body.ownRefs, _ at hown
  change ∀ g ∈ body.inner, _ at hinner
  change body.Sized at hs
  cases body with
  | int i =>
    simp only [Field.maxLengthVia]
    exact caps_of_le hs.2
  | float x =>
    simp only [Field.maxLengthVia]
    refine caps_of_le ?_
    cases x.type <;> decide
  | enum | set | bitfield =>
    simp only [Field.maxLengthVia]
    exact caps_of_le hs
  | bundle members aliases =>
    rw [Field.maxLengthVia, maxOfMembers_eq_foldr]
    exact caps_foldr_addLengths hinner
  | variant members default aliases =>
    simp only [Field.maxLengthVia]
    exact caps_greatestOfMembers hinner
  | string s =>
    simp only [Field.maxLengthVia]
    exact caps_maxBytes hs hown
  | data d =>
    simp only [Field.maxLengthVia]
    exact caps_maxBytes hs hown
  | list element count c l el fixed =>
    simp only [Body.ownRefs, Body.inner, List.forall_mem_append] at hown hinner
    obtain ⟨hoe, hoc, hol, hoel⟩ := hown
    obtain ⟨hie, hic, hil, hiel⟩ := hinner
    have hc := caps_maxOfPrefix hoc hic
    have hl := caps_maxOfPrefix hol hil
    have hel := caps_maxOfPrefix hoel hiel
    cases element with
    | inline e =>
      simp only [Field.maxLengthVia]
      exact caps_maxOfList (hie e (by simp [Part.inner])) hc hl hel count fixed c l
    | reference r =>
      simp only [Field.maxLengthVia]
      exact caps_maxOfList (hoe r (by simp [Part.ownRefs])) hc hl hel count fixed c l
  | ref target bitLength =>
    simp only [Field.maxLengthVia]
    exact hown target (by simp [Body.ownRefs])
  | optional o =>
    simp only [Field.maxLengthVia]
    exact hown o.field (by simp [Body.ownRefs])

end caps

/-! ### Exact lengths of a body are in order -/

section order
variable {a : Arena} {value value' : Field → ℕ∞} {via via' : FieldRef → ℕ∞} {fs : List Field}

theorem exactMinBytes_le_exactMaxBytes {length : Option ℕ} {source : Option PrefixName}
    {suffix : ℕ} (h : ∀ r ∈ namedRefs source, via r ≤ via' r) :
    exactMinBytes via length source suffix ≤ exactMaxBytes a via' length source := by
  unfold exactMinBytes exactMaxBytes
  cases length with
  | some n => exact le_rfl
  | none =>
    cases source with
    | none => exact le_top
    | some p => exact (PrefixName.exact_rel le_rfl h).trans le_self_add

/-- The least of the members is at most the first one, the greatest of them at least that. -/
theorem leastOfMembers_le_greatest (h : ∀ f ∈ fs, value f ≤ value' f) :
    (fs.map value).min?.getD 0 ≤ (fs.map value').foldr max 0 := by
  cases fs with
  | nil => exact le_rfl
  | cons f fs =>
    rw [List.map_cons, List.map_cons, List.min?_cons, Option.getD_some, List.foldr_cons]
    calc (fs.map value).min?.elim (value f) (min (value f))
        ≤ value f := by
          cases (fs.map value).min? with
          | none => exact le_rfl
          | some n => exact min_le_left _ _
      _ ≤ value' f := h f List.mem_cons_self
      _ ≤ max (value' f) _ := le_max_left _ _

theorem exactMinOfList_le_exactMaxOfList {x x' y y' z z' w w' : ℕ∞} (he : x ≤ x') (hc : y ≤ y')
    (hl : z ≤ z') (hel : w ≤ w') (count : Option ℕ) (fixed : Bool) (c l : Option Prefix) :
    exactMinOfList count (exactEach fixed x w) (exactShared fixed w) y z c.isSome ≤
      exactMaxOfList count (exactEach fixed x' w') (exactShared fixed w') y' z'
        (c.map a.exactLimit) (l.map a.exactLimit) := by
  have heach : exactEach fixed x w ≤ exactEach fixed x' w' := by
    cases fixed with
    | true => exact he
    | false => exact add_le_add he hel
  have hshared : exactShared fixed w ≤ exactShared fixed w' := by
    cases fixed with
    | true => exact hel
    | false => exact le_rfl
  rcases count with _ | n
  · rcases c with _ | c
    · rcases l with _ | l
      · exact le_top
      · exact hl.trans le_self_add
    · exact hc.trans (le_self_add.trans le_self_add)
  · exact add_le_add hshared (mul_le_mul_right heach _)

/-- **The exact least length of a body is not greater than the greatest one** if this holds of what
the body asks for. -/
theorem Body.exactMin_le_exactMax {body : Body} (hs : body.Sized)
    (hown : ∀ r ∈ body.ownRefs, via r ≤ via' r) (hinner : ∀ f ∈ body.inner, value f ≤ value' f) :
    body.exactMin value via ≤ body.exactMax a value' via' := by
  cases body with
  | int i =>
    refine Nat.cast_le.mpr ?_
    unfold IntField.minLength
    split_ifs
    · exact hs.1
    · exact le_rfl
  | bundle members aliases => exact List.sum_le_sum hinner
  | variant members default aliases => exact leastOfMembers_le_greatest hinner
  | string s => exact exactMinBytes_le_exactMaxBytes hown
  | data d => exact exactMinBytes_le_exactMaxBytes hown
  | ref target bitLength => exact hown target (by simp [Body.ownRefs])
  | optional o => exact zero_le
  | list element count c l el fixed =>
    obtain ⟨he, hc, hl, hel⟩ := exact_rel_of_list le_rfl hown hinner
    exact exactMinOfList_le_exactMaxOfList he hc hl hel count fixed c l
  | float | enum | set | bitfield => exact le_rfl

end order

end WireSchema
