import WireSchema.Finding.Pass

/-! # Passes that succeed

A pass has a value only if each of its steps had one (`result_bind_eq_ok`). A pass that is settled
leaves an error if it had no value (`exists_isError_of_settle`). Passes that find nothing but
warnings do so one after the other (`WarnsOnly.bind`). -/

namespace WireSchema

theorem bind_eq_ok {α β ε : Type} {x : Except ε α} {f : α → Except ε β} {b : β} :
    (x >>= f) = .ok b ↔ ∃ a, x = .ok a ∧ f a = .ok b := by
  cases x <;> simp [Bind.bind, Except.bind]

theorem toOption_eq_some {α ε : Type} {x : Except ε α} {a : α} :
    x.toOption = some a ↔ x = .ok a := by
  cases x <;> simp [Except.toOption]

theorem throw_bind_ne_ok {α β ε : Type} {e : ε} {f : α → Except ε β} {b : β} :
    (throw e >>= f) ≠ .ok b := by
  intro h
  obtain ⟨_, hthrow, -⟩ := bind_eq_ok.mp h
  cases hthrow

section
variable {α β ε : Type} {step : List β → α → Except ε β} {xs : List α} {known bs : List β}

/-- What each step of a fold keeps when it adds an item, the fold keeps. -/
theorem foldlM_keeps {Q : List β → Prop}
    (hstep : ∀ known x b, Q known → step known x = .ok b → Q (known ++ [b]))
    (h : xs.foldlM (fun known x => do return known ++ [← step known x]) known = .ok bs)
    (hknown : Q known) : Q bs := by
  induction xs generalizing known with
  | nil =>
    cases h
    exact hknown
  | cons x xs ih =>
    rw [List.foldlM_cons] at h
    obtain ⟨next, hnext, h⟩ := bind_eq_ok.mp h
    obtain ⟨b, hb, hnext⟩ := bind_eq_ok.mp hnext
    cases hnext
    exact ih h (hstep known x b hknown hb)

/-- What a step of a fold establishes of the items that it adds holds of all items. -/
theorem forall_mem_foldlM {P : β → Prop} (hstep : ∀ known x b, step known x = .ok b → P b)
    (h : xs.foldlM (fun known x => do return known ++ [← step known x]) known = .ok bs)
    (hknown : ∀ b ∈ known, P b) : ∀ b ∈ bs, P b := by
  refine foldlM_keeps (Q := fun bs => ∀ b ∈ bs, P b) (fun known x b hall hb => ?_) h hknown
  exact List.forall_mem_append.mpr ⟨hall, List.forall_mem_singleton.mpr (hstep known x b hb)⟩

/-- Each step of a fold adds its item. -/
theorem exists_mem_foldlM
    (h : xs.foldlM (fun known x => do return known ++ [← step known x]) known = .ok bs) :
    known ⊆ bs ∧ ∀ x ∈ xs, ∃ b ∈ bs, ∃ known, step known x = .ok b := by
  induction xs generalizing known with
  | nil =>
    cases h
    exact ⟨List.Subset.refl _, fun x hx => absurd hx List.not_mem_nil⟩
  | cons x xs ih =>
    rw [List.foldlM_cons] at h
    obtain ⟨next, hnext, h⟩ := bind_eq_ok.mp h
    obtain ⟨b, hb, hnext⟩ := bind_eq_ok.mp hnext
    cases hnext
    obtain ⟨hsub, hall⟩ := ih h
    refine ⟨fun a ha => hsub (List.mem_append_left _ ha), List.forall_mem_cons.mpr ⟨?_, hall⟩⟩
    exact ⟨b, hsub (List.mem_append_right _ List.mem_cons_self), known, hb⟩

/-- Each item that a fold adds comes from one that it goes through. -/
theorem exists_of_mem_foldlM
    (h : xs.foldlM (fun known x => do return known ++ [← step known x]) known = .ok bs) :
    ∀ b ∈ bs, b ∈ known ∨ ∃ x ∈ xs, ∃ known, step known x = .ok b := by
  induction xs generalizing known with
  | nil =>
    cases h
    exact fun b hb => Or.inl hb
  | cons x xs ih =>
    rw [List.foldlM_cons] at h
    obtain ⟨next, hnext, h⟩ := bind_eq_ok.mp h
    obtain ⟨a, ha, hnext⟩ := bind_eq_ok.mp hnext
    cases hnext
    intro b hb
    rcases ih h b hb with hb | ⟨y, hy, hstep⟩
    · rcases List.mem_append.mp hb with hb | hb
      · exact Or.inl hb
      · obtain rfl := List.mem_singleton.mp hb
        exact Or.inr ⟨x, List.mem_cons_self, known, ha⟩
    · exact Or.inr ⟨y, List.mem_cons_of_mem _ hy, hstep⟩

theorem exists_mem_mapM {f : α → Except ε β} (h : xs.mapM f = .ok bs) :
    ∀ x ∈ xs, ∃ b ∈ bs, f x = .ok b := by
  induction xs generalizing bs with
  | nil => exact fun x hx => absurd hx List.not_mem_nil
  | cons x xs ih =>
    rw [List.mapM_cons] at h
    obtain ⟨b, hb, h⟩ := bind_eq_ok.mp h
    obtain ⟨rest, hrest, h⟩ := bind_eq_ok.mp h
    cases h
    refine List.forall_mem_cons.mpr ⟨⟨b, List.mem_cons_self, hb⟩, fun y hy => ?_⟩
    obtain ⟨c, hc, hfc⟩ := ih hrest y hy
    exact ⟨c, List.mem_cons_of_mem _ hc, hfc⟩

theorem exists_of_mem_mapM {f : α → Except ε β} (h : xs.mapM f = .ok bs) :
    ∀ b ∈ bs, ∃ x ∈ xs, f x = .ok b := by
  induction xs generalizing bs with
  | nil =>
    cases h
    exact fun b hb => absurd hb List.not_mem_nil
  | cons x xs ih =>
    rw [List.mapM_cons] at h
    obtain ⟨b, hb, h⟩ := bind_eq_ok.mp h
    obtain ⟨rest, hrest, h⟩ := bind_eq_ok.mp h
    cases h
    refine List.forall_mem_cons.mpr ⟨⟨x, List.mem_cons_self, hb⟩, fun c hc => ?_⟩
    obtain ⟨y, hy, hfy⟩ := ih hrest c hc
    exact ⟨y, List.mem_cons_of_mem _ hy, hfy⟩

end

/-- What ends a pass is no warning. -/
theorem Failure.isError_cause (failure : Failure) (line : Nat) :
    (⟨line, failure.cause⟩ : Finding).isError = true := by
  cases failure <;> rfl

namespace Pass

variable {α β : Type}

theorem result_bind_eq_ok {p : Pass α} {f : α → Pass β} {b : β} :
    (p >>= f).result = .ok b ↔ ∃ a, p.result = .ok a ∧ (f a).result = .ok b := by
  cases h : p.result with
  | error e => simp [bind_of_error f h]
  | ok a => simp [bind_of_ok f h]

theorem result_map_eq_ok {p : Pass α} {g : α → β} {b : β} :
    (g <$> p).result = .ok b ↔ ∃ a, p.result = .ok a ∧ g a = b := by
  rw [← bind_pure_comp, result_bind_eq_ok]
  simp

theorem result_bind_of_ok {p : Pass α} {a : α} (f : α → Pass β) (h : p.result = .ok a) :
    (p >>= f).result = (f a).result := by
  rw [bind_of_ok f h]

theorem result_bind_of_error {p : Pass α} {failure : Failure} (f : α → Pass β)
    (h : p.result = .error failure) : (p >>= f).result = .error failure := by
  rw [bind_of_error f h]

@[simp] theorem result_ofExcept_eq_ok {x : Except SchemaError α} {a : α} :
    (ofExcept x).result = .ok a ↔ x = .ok a := by
  cases x <;> simp [ofExcept, fail]

@[simp] theorem result_liftM_eq_ok {x : Except SchemaError α} {a : α} :
    (liftM x : Pass α).result = .ok a ↔ x = .ok a :=
  result_ofExcept_eq_ok

theorem result_liftM_of_error {x : Except SchemaError α} {e : SchemaError} (h : x = .error e) :
    (liftM x : Pass α).result = .error (.error e) := by
  rw [h]
  rfl

theorem result_ofOption_eq_ok {e : SchemaError} {x : Option α} {a : α} :
    (ofOption e x).result = .ok a ↔ x = some a := by
  cases x <;> simp [ofOption, fail]

theorem result_require_eq_ok {condition : Bool} {e : SchemaError} {u : Unit} :
    (require condition e).result = .ok u ↔ condition = true := by
  cases condition <;> simp [require, fail]

theorem result_succeeds_eq_ok {p : Pass Unit} {line : Nat} :
    (p.succeeds line).result = .ok true ↔ p.result = .ok () := by
  unfold succeeds settle
  cases p.result <;> simp

/-- Two flags that are put together are set if both are. -/
theorem result_and_eq_ok {p q : Pass Bool} :
    (p >>= fun ok => q >>= fun ok' => pure (ok && ok')).result = .ok true ↔
      p.result = .ok true ∧ q.result = .ok true := by
  simp only [result_bind_eq_ok, result_pure, Except.ok.injEq, Bool.and_eq_true]
  constructor
  · rintro ⟨ok, hp, ok', hq, rfl, rfl⟩
    exact ⟨hp, hq⟩
  · rintro ⟨hp, hq⟩
    exact ⟨true, hp, true, hq, rfl, rfl⟩

theorem exists_isError_of_settle {p : Pass α} {line : Nat} (h : (p.settle line).1 = none) :
    ∃ x ∈ (p.settle line).2, x.isError = true := by
  unfold settle at h ⊢
  cases hr : p.result with
  | ok a => simp [hr] at h
  | error failure => exact ⟨⟨line, failure.cause⟩, by simp, failure.isError_cause line⟩

theorem settle_fst_eq_some {p : Pass α} {line : Nat} {a : α} :
    (p.settle line).1 = some a ↔ p.result = .ok a := by
  unfold settle
  cases p.result <;> simp

theorem settle_fst_eq_none {p : Pass α} {failure : Failure} (h : p.result = .error failure)
    (line : Nat) : (p.settle line).1 = none := by
  unfold settle
  rw [h]

theorem result_settled_eq_some {p : Pass α} {line : Nat} {a : α} :
    (p.settled line).result = .ok (some a) ↔ p.result = .ok a := by
  unfold settled
  rcases p.result with (e | _) | a <;> simp

/-- Nothing that the pass finds is an error. -/
def WarnsOnly (p : Pass α) : Prop := ∀ x ∈ p.findings, x.isError = false

theorem warnsOnly_pure (a : α) : WarnsOnly (pure a : Pass α) := by
  intro x hx
  simp at hx

theorem warnsOnly_liftM (x : Except SchemaError α) : WarnsOnly (liftM x : Pass α) := by
  intro y hy
  change y ∈ (ofExcept x).findings at hy
  cases x <;> simp [ofExcept, fail] at hy

theorem warnsOnly_require (condition : Bool) (e : SchemaError) :
    WarnsOnly (require condition e) := by
  intro x hx
  cases condition <;> simp [require, fail] at hx

theorem warnsOnly_warnAll (ws : List (Nat × Warning)) : WarnsOnly (warnAll ws) := by
  intro x hx
  obtain ⟨w, -, rfl⟩ := List.mem_map.mp hx
  rfl

theorem WarnsOnly.bind {p : Pass α} {f : α → Pass β} (hp : p.WarnsOnly)
    (hf : ∀ a, (f a).WarnsOnly) : (p >>= f).WarnsOnly := by
  intro x hx
  cases h : p.result with
  | error e =>
    rw [bind_of_error f h] at hx
    exact hp x hx
  | ok a =>
    rw [bind_of_ok f h] at hx
    rcases List.mem_append.mp hx with hx | hx
    · exact hp x hx
    · exact hf a x hx

end Pass

end WireSchema
