import WireSchema.Proofs.Finding.Law

/-! # Passes without end

A pass *ends unless* something is to blame for it (`Pass.EndsUnless`). What is to blame for a
sequence of passes is to blame for one of them (`EndsUnless.bind`). Only a pass inside of another
one can be to blame: the other steps always come to an end. -/

namespace WireSchema.Pass

variable {α β : Type} {P Q : Prop} {p : Pass α} {f : α → Pass β}

/-- If the pass has no end, the condition is to blame. None of its findings is a mark. -/
structure EndsUnless (P : Prop) (p : Pass α) : Prop where
  blame : p.result = .error .endless → P
  unmarked : ∀ x ∈ p.findings, x.isEndless = false

theorem EndsUnless.imp (h : p.EndsUnless P) (hPQ : P → Q) : p.EndsUnless Q :=
  ⟨fun hp => hPQ (h.blame hp), h.unmarked⟩

/-! ### Single steps -/

theorem endsUnless_ok (a : α) : (⟨[], .ok a⟩ : Pass α).EndsUnless P :=
  ⟨nofun, fun _ hx => absurd hx List.not_mem_nil⟩

theorem endsUnless_pure (a : α) : (pure a : Pass α).EndsUnless P := endsUnless_ok a

theorem endsUnless_fail (e : SchemaError) : (fail e : Pass α).EndsUnless P :=
  ⟨nofun, fun _ hx => absurd hx List.not_mem_nil⟩

theorem endsUnless_endless (h : P) : (endless : Pass α).EndsUnless P :=
  ⟨fun _ => h, fun _ hx => absurd hx List.not_mem_nil⟩

theorem endsUnless_warn (line : Nat) (w : Warning) : (warn line w).EndsUnless P :=
  ⟨nofun, fun x hx => by rw [List.mem_singleton.mp hx]; rfl⟩

theorem endsUnless_warnAll (ws : List (Nat × Warning)) : (warnAll ws).EndsUnless P := by
  refine ⟨nofun, fun x hx => ?_⟩
  obtain ⟨w, -, rfl⟩ := List.mem_map.mp hx
  rfl

theorem endsUnless_ofExcept (x : Except SchemaError α) : (ofExcept x).EndsUnless P := by
  cases x with
  | ok a => exact endsUnless_pure a
  | error e => exact endsUnless_fail e

theorem endsUnless_liftM (x : Except SchemaError α) : (liftM x : Pass α).EndsUnless P :=
  endsUnless_ofExcept x

theorem endsUnless_ofOption (e : SchemaError) (x : Option α) : (ofOption e x).EndsUnless P := by
  cases x with
  | some a => exact endsUnless_pure a
  | none => exact endsUnless_fail e

theorem endsUnless_require (condition : Bool) (e : SchemaError) :
    (require condition e).EndsUnless P := by
  cases condition with
  | true => exact endsUnless_pure ()
  | false => exact endsUnless_fail e

/-! ### Steps one after the other -/

/-- What a step comes to is known in the steps after it. -/
theorem EndsUnless.bindOk (hp : p.EndsUnless P)
    (hf : ∀ a, p.result = .ok a → (f a).EndsUnless P) : (p >>= f).EndsUnless P := by
  cases h : p.result with
  | error failure =>
    rw [bind_of_error f h]
    refine ⟨fun hend => hp.blame ?_, hp.unmarked⟩
    rw [h, Except.error.inj hend]
  | ok a =>
    rw [bind_of_ok f h]
    have ha := hf a h
    exact ⟨ha.blame, List.forall_mem_append.mpr ⟨hp.unmarked, ha.unmarked⟩⟩

theorem EndsUnless.bind (hp : p.EndsUnless P) (hf : ∀ a, (f a).EndsUnless P) :
    (p >>= f).EndsUnless P :=
  hp.bindOk fun a _ => hf a

theorem endsUnless_liftM_bind {x : Except SchemaError α} (hf : ∀ a, (f a).EndsUnless P) :
    ((liftM x : Pass α) >>= f).EndsUnless P :=
  (endsUnless_liftM x).bind hf

theorem endsUnless_require_bind {condition : Bool} {e : SchemaError} {f : Unit → Pass β}
    (hf : ∀ u, (f u).EndsUnless P) : (require condition e >>= f).EndsUnless P :=
  (endsUnless_require condition e).bind hf

theorem EndsUnless.settled (h : p.EndsUnless P) (line : Nat) :
    (p.settled line).EndsUnless P := by
  unfold Pass.settled
  split
  · exact ⟨nofun, h.unmarked⟩
  · refine ⟨nofun, List.forall_mem_append.mpr ⟨h.unmarked, ?_⟩⟩
    exact List.forall_mem_singleton.mpr rfl
  · rename_i hp
    exact ⟨fun _ => h.blame hp, h.unmarked⟩

theorem endsUnless_law (P : Prop) : Law fun _ p _ => p.EndsUnless P where
  refl_ofExcept := endsUnless_ofExcept
  refl_warnAll := endsUnless_warnAll
  bindOk := EndsUnless.bindOk
  settled := EndsUnless.settled

/-! ### Marks -/

theorem not_exists_mark {fs : List Finding} (h : ∀ x ∈ fs, x.isEndless = false) :
    ¬ ∃ x ∈ fs, x.isEndless = true := by
  rintro ⟨x, hx, hmark⟩
  rw [h x hx] at hmark
  exact Bool.noConfusion hmark

/-- Marks are not to be looked for where there are none. -/
theorem exists_mark_append_iff {fs gs : List Finding} (h : ∀ x ∈ fs, x.isEndless = false) :
    (∃ x ∈ fs ++ gs, x.isEndless = true) ↔ ∃ x ∈ gs, x.isEndless = true := by
  simp only [List.mem_append, or_and_right, exists_or, or_iff_right (not_exists_mark h)]

theorem exists_mark_concat_iff {fs : List Finding} (line : Nat) (e : SchemaError) :
    (∃ x ∈ fs ++ [⟨line, .error e⟩], x.isEndless = true) ↔ ∃ x ∈ fs, x.isEndless = true := by
  simp [or_and_right, exists_or, Finding.isEndless]

/-- A pass that is settled leaves a mark just where it has no end. -/
theorem EndsUnless.exists_mark_iff (h : p.EndsUnless P) (line : Nat) :
    (∃ x ∈ (p.settle line).2, x.isEndless = true) ↔ p.result = .error .endless := by
  unfold settle
  cases hp : p.result with
  | ok a => exact iff_of_false (not_exists_mark h.unmarked) nofun
  | error failure =>
    rw [exists_mark_append_iff h.unmarked]
    cases failure with
    | error e => simp [Finding.isEndless, Failure.cause]
    | endless => simp [Finding.isEndless, Failure.cause]

end WireSchema.Pass
