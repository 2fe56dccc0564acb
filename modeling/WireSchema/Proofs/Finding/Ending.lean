import WireSchema.Proofs.Finding.Pass

/-! # How passes end

A pass *ends with* a value *within* some findings if this is its result and all that it finds is
among them (`Pass.EndsWithin`). This is so if and only if it is so of each of its steps
(`endsWithin_bind`, `endsWithin_forM`). If a pass has to be quiet, it is to find nothing on the way
(`Pass.EndsWith`). What it finds is what its steps *leave*, one after the other (`Pass.Leaves`). -/

namespace WireSchema.Pass

variable {α β γ : Type} {F : Finding → Prop} {quiet : Prop} {p : Pass α} {f : α → Pass β} {a : α}
  {b : β} {fs : List Finding}

/-! ### Findings on the way -/

/-- The pass ends with the value, and each of its findings is one of those in question. -/
def EndsWithin (p : Pass α) (F : Finding → Prop) (a : α) : Prop :=
  p.result = .ok a ∧ ∀ x ∈ p.findings, F x

@[simp] theorem endsWithin_pure {a' : α} : (pure a : Pass α).EndsWithin F a' ↔ a = a' := by
  simp [EndsWithin]

@[simp] theorem not_endsWithin_fail {e : SchemaError} : ¬ (fail e : Pass α).EndsWithin F a := by
  simp [EndsWithin, fail]

@[simp] theorem not_endsWithin_endless : ¬ (endless : Pass α).EndsWithin F a := by
  simp [EndsWithin, endless]

@[simp] theorem endsWithin_warn {line : Nat} {w : Warning} {u : Unit} :
    (warn line w).EndsWithin F u ↔ F ⟨line, .warning w⟩ := by
  simp [EndsWithin, warn]

@[simp] theorem endsWithin_warnAll {ws : List (Nat × Warning)} {u : Unit} :
    (warnAll ws).EndsWithin F u ↔ ∀ w ∈ ws, F ⟨w.1, .warning w.2⟩ := by
  unfold EndsWithin warnAll
  rw [List.forall_mem_map]
  exact and_iff_right rfl

@[simp] theorem endsWithin_liftM {x : Except SchemaError α} :
    (liftM x : Pass α).EndsWithin F a ↔ x = .ok a := by
  change (ofExcept x).EndsWithin F a ↔ x = .ok a
  cases x with
  | ok a' => simp [ofExcept]
  | error e => simp [ofExcept]

@[simp] theorem endsWithin_require {condition : Bool} {e : SchemaError} {u : Unit} :
    (require condition e).EndsWithin F u ↔ condition = true := by
  cases condition <;> simp [require]

theorem endsWithin_bind :
    (p >>= f).EndsWithin F b ↔ ∃ a, p.EndsWithin F a ∧ (f a).EndsWithin F b := by
  cases hp : p.result with
  | error e => simp [EndsWithin, bind_of_error f hp, hp]
  | ok a =>
    simp only [EndsWithin, bind_of_ok f hp, hp, Except.ok.injEq, List.forall_mem_append]
    constructor
    · rintro ⟨hresult, hfirst, hrest⟩
      exact ⟨a, ⟨rfl, hfirst⟩, hresult, hrest⟩
    · rintro ⟨_, ⟨rfl, hfirst⟩, hresult, hrest⟩
      exact ⟨hresult, hfirst, hrest⟩

theorem endsWithin_settled {line : Nat} :
    (p.settled line).EndsWithin F (some a) ↔ p.EndsWithin F a := by
  unfold EndsWithin settled
  rcases p.result with (e | _) | a <;> simp

theorem endsWithin_forM {f : γ → Pass Unit} {xs : List γ} {u : Unit} :
    (xs.forM f).EndsWithin F u ↔ ∀ x ∈ xs, (f x).EndsWithin F () := by
  induction xs with
  | nil => simp
  | cons x xs ih =>
    change (f x >>= fun _ => xs.forM f).EndsWithin F u ↔ _
    rw [endsWithin_bind, List.forall_mem_cons, ← ih]
    constructor
    · rintro ⟨_, hx, hxs⟩
      exact ⟨hx, hxs⟩
    · rintro ⟨hx, hxs⟩
      exact ⟨(), hx, hxs⟩

/-! ### Quiet passes -/

/-- The pass ends with the value, and if it is to be quiet, it finds nothing. -/
def EndsWith (p : Pass α) (quiet : Prop) (a : α) : Prop :=
  p.result = .ok a ∧ (quiet → p.findings = [])

/-- No finding is one of those that a quiet pass may have. -/
theorem endsWith_iff : p.EndsWith quiet a ↔ p.EndsWithin (fun _ => ¬ quiet) a := by
  unfold EndsWith EndsWithin
  rw [List.eq_nil_iff_forall_not_mem]
  exact and_congr_right fun _ => ⟨fun h x hx hq => h hq x hx, fun h hq x hx => h x hx hq⟩

theorem endsWith_false : p.EndsWith False a ↔ p.result = .ok a := by
  simp [EndsWith]

@[simp] theorem endsWith_pure {a' : α} : (pure a : Pass α).EndsWith quiet a' ↔ a = a' := by
  rw [endsWith_iff, endsWithin_pure]

@[simp] theorem not_endsWith_fail {e : SchemaError} : ¬ (fail e : Pass α).EndsWith quiet a := by
  rw [endsWith_iff]
  exact not_endsWithin_fail

@[simp] theorem endsWith_warn {line : Nat} {w : Warning} {u : Unit} :
    (warn line w).EndsWith quiet u ↔ ¬ quiet := by
  rw [endsWith_iff, endsWithin_warn]

@[simp] theorem endsWith_liftM {x : Except SchemaError α} :
    (liftM x : Pass α).EndsWith quiet a ↔ x = .ok a := by
  rw [endsWith_iff, endsWithin_liftM]

@[simp] theorem endsWith_require {condition : Bool} {e : SchemaError} {u : Unit} :
    (require condition e).EndsWith quiet u ↔ condition = true := by
  rw [endsWith_iff, endsWithin_require]

theorem endsWith_bind :
    (p >>= f).EndsWith quiet b ↔ ∃ a, p.EndsWith quiet a ∧ (f a).EndsWith quiet b := by
  simp only [endsWith_iff, endsWithin_bind]

theorem endsWith_forM {f : γ → Pass Unit} {xs : List γ} {u : Unit} :
    (xs.forM f).EndsWith quiet u ↔ ∀ x ∈ xs, (f x).EndsWith quiet () := by
  simp only [endsWith_iff, endsWithin_forM]

/-- What a fold knows of the items that it has been through holds of all of them in the end. -/
theorem EndsWith.foldlM {step : α → γ → Pass α} {Q : List γ → α → Prop} {xs : List γ} {a' : α}
    (h : (xs.foldlM step a).EndsWith quiet a') (ha : Q [] a)
    (hstep : ∀ done a c a', Q done a → (step a c).EndsWith quiet a' → Q (done ++ [c]) a') :
    Q xs a' := by
  have hrest : ∀ (xs done : List γ) (a : α), Q done a → (xs.foldlM step a).EndsWith quiet a' →
      Q (done ++ xs) a' := by
    intro xs
    induction xs with
    | nil =>
      intro done a ha h
      rw [List.foldlM_nil, endsWith_pure] at h
      rw [List.append_nil, ← h]
      exact ha
    | cons c xs ih =>
      intro done a ha h
      rw [List.foldlM_cons, endsWith_bind] at h
      obtain ⟨next, hnext, h⟩ := h
      have hall := ih (done ++ [c]) next (hstep done a c next ha hnext) h
      rwa [List.append_assoc] at hall
  exact hrest xs [] a ha h

/-! ### What passes leave -/

/-- The pass ends with the value, and this is all that it finds on the way. -/
def Leaves (p : Pass α) (fs : List Finding) (a : α) : Prop := p.result = .ok a ∧ p.findings = fs

theorem leaves_of_ok (h : p.result = .ok a) : p.Leaves p.findings a := ⟨h, rfl⟩

theorem leaves_bind : (p >>= f).Leaves fs b ↔ ∃ a fs₁ fs₂,
    p.Leaves fs₁ a ∧ (f a).Leaves fs₂ b ∧ fs = fs₁ ++ fs₂ := by
  unfold Leaves
  cases hp : p.result with
  | error e => simp [bind_of_error f hp]
  | ok a =>
    rw [bind_of_ok f hp]
    constructor
    · rintro ⟨hresult, rfl⟩
      exact ⟨a, _, _, ⟨rfl, rfl⟩, ⟨hresult, rfl⟩, rfl⟩
    · rintro ⟨_, _, _, ⟨⟨⟩, rfl⟩, ⟨hresult, rfl⟩, rfl⟩
      exact ⟨hresult, rfl⟩

theorem leaves_pure {a' : α} : (pure a : Pass α).Leaves fs a' ↔ a = a' ∧ fs = [] := by
  simp [Leaves, eq_comm]

theorem leaves_liftM_bind {x : Except SchemaError α} :
    ((liftM x : Pass α) >>= f).Leaves fs b ↔ ∃ a, x = .ok a ∧ (f a).Leaves fs b := by
  unfold Leaves
  cases x with
  | error e => simp [bind_of_error (p := liftM (.error e : Except SchemaError α)) f rfl]
  | ok a =>
    simp only [bind_of_ok (p := liftM (.ok a : Except SchemaError α)) f rfl, Except.ok.injEq,
      exists_eq_left']
    exact Iff.rfl

theorem leaves_map {g : α → β} : (g <$> p).Leaves fs b ↔ ∃ a, p.Leaves fs a ∧ g a = b := by
  rw [← bind_pure_comp, leaves_bind]
  constructor
  · rintro ⟨a, fs₁, fs₂, hp, hpure, rfl⟩
    obtain ⟨hb, rfl⟩ := leaves_pure.mp hpure
    exact ⟨a, by rwa [List.append_nil], hb⟩
  · rintro ⟨a, hp, hb⟩
    exact ⟨a, fs, [], hp, leaves_pure.mpr ⟨hb, rfl⟩, (List.append_nil fs).symm⟩

theorem not_leaves_fail {e : SchemaError} : ¬ (fail e : Pass α).Leaves fs a := by
  simp [Leaves, fail]

theorem leaves_require_bind {condition : Bool} {e : SchemaError} {f : Unit → Pass β} :
    (require condition e >>= f).Leaves fs b ↔ condition = true ∧ (f ()).Leaves fs b := by
  unfold Leaves
  cases condition with
  | false => simp [require, bind_of_error (p := fail e) f rfl]
  | true => simp [require]

theorem findings_of_leaves_forM {f : γ → Pass Unit} {g : γ → List Finding} {xs : List γ} {u : Unit}
    (hf : ∀ x fs, (f x).Leaves fs () → fs = g x) (h : (xs.forM f).Leaves fs u) :
    fs = xs.flatMap g := by
  induction xs generalizing fs with
  | nil => exact (leaves_pure.mp h).2
  | cons x xs ih =>
    obtain ⟨_, fs₁, fs₂, hx, hrest, rfl⟩ := leaves_bind.mp h
    rw [List.flatMap_cons, ← hf x fs₁ hx, ← ih hrest]

end WireSchema.Pass
