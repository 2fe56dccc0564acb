import WireSchema.Proofs.Finding.Pass

/-! # Computations that do at least as well

One computation *carries over* to another one if the second has a value wherever the first has one,
and the two values are related. What each of them finds, and the error it ends with, does not
matter. Steps carry over one after the other (`Carries.bind`, `Carries.passBind`), and a step that
both make is passed over (`carries_bind`, `carries_passBind`). Two computations of which each
carries over to the other one have the same value (`SameValue`). -/

namespace WireSchema

variable {α β γ δ ε : Type} {R : α → β → Prop} {S : γ → δ → Prop}

/-- Where the first computation has a value, the second one has a related one. -/
def Carries (R : α → β → Prop) (x : Except ε α) (y : Except ε β) : Prop :=
  ∀ a, x = .ok a → ∃ b, y = .ok b ∧ R a b

theorem carries_rfl (x : Except ε α) : Carries Eq x x := fun a h => ⟨a, h, rfl⟩

theorem carries_ok {a : α} {b : β} (h : R a b) :
    Carries R (.ok a : Except ε α) (.ok b : Except ε β) := by
  rintro a' ⟨⟩
  exact ⟨b, rfl, h⟩

theorem carries_error (e : ε) (y : Except ε β) : Carries R (.error e : Except ε α) y := by
  rintro a ⟨⟩

theorem carries_throw (e : ε) (y : Except ε β) : Carries R (throw e : Except ε α) y :=
  carries_error e y

theorem carries_fail (e : SchemaError) (y : Except Failure β) :
    Carries R (Pass.fail e : Pass α).result y :=
  carries_error _ y

theorem carries_endless (y : Except Failure β) : Carries R (Pass.endless : Pass α).result y :=
  carries_error _ y

theorem Carries.imp {R' : α → β → Prop} {x : Except ε α} {y : Except ε β} (h : Carries R x y)
    (himp : ∀ a b, R a b → R' a b) : Carries R' x y := by
  intro a ha
  obtain ⟨b, hb, hab⟩ := h a ha
  exact ⟨b, hb, himp a b hab⟩

/-! ### Steps -/

theorem Carries.bind {x : Except ε α} {y : Except ε β}
    {f : α → Except ε γ} {g : β → Except ε δ} (h : Carries R x y)
    (hfg : ∀ a b, R a b → Carries S (f a) (g b)) : Carries S (x >>= f) (y >>= g) := by
  intro c hc
  obtain ⟨a, ha, hc⟩ := bind_eq_ok.mp hc
  obtain ⟨b, hb, hab⟩ := h a ha
  obtain ⟨d, hd, hcd⟩ := hfg a b hab c hc
  exact ⟨d, bind_eq_ok.mpr ⟨b, hb, hd⟩, hcd⟩

theorem Carries.passBind {p : Pass α} {q : Pass β} {f : α → Pass γ} {g : β → Pass δ}
    (h : Carries R p.result q.result) (hfg : ∀ a b, R a b → Carries S (f a).result (g b).result) :
    Carries S (p >>= f).result (q >>= g).result := by
  intro c hc
  obtain ⟨a, ha, hc⟩ := Pass.result_bind_eq_ok.mp hc
  obtain ⟨b, hb, hab⟩ := h a ha
  obtain ⟨d, hd, hcd⟩ := hfg a b hab c hc
  exact ⟨d, Pass.result_bind_eq_ok.mpr ⟨b, hb, hd⟩, hcd⟩

/-- Steps whose values are the same. -/
theorem Carries.bindEq {x y : Except ε α} {f : α → Except ε γ}
    {g : α → Except ε δ} (h : Carries Eq x y) (hfg : ∀ a, Carries S (f a) (g a)) :
    Carries S (x >>= f) (y >>= g) :=
  h.bind fun a _ hab => hab ▸ hfg a

theorem Carries.passBindEq {p q : Pass α} {f : α → Pass γ} {g : α → Pass δ}
    (h : Carries Eq p.result q.result) (hfg : ∀ a, Carries S (f a).result (g a).result) :
    Carries S (p >>= f).result (q >>= g).result :=
  h.passBind fun a _ hab => hab ▸ hfg a

theorem carries_bind {x : Except ε α} {f : α → Except ε γ}
    {g : α → Except ε δ} (hfg : ∀ a, Carries S (f a) (g a)) :
    Carries S (x >>= f) (x >>= g) :=
  (carries_rfl x).bindEq hfg

theorem carries_passBind {p : Pass α} {f : α → Pass γ} {g : α → Pass δ}
    (hfg : ∀ a, Carries S (f a).result (g a).result) :
    Carries S (p >>= f).result (p >>= g).result :=
  (carries_rfl p.result).passBindEq hfg

theorem carries_ofExcept {x : Except SchemaError α} {y : Except SchemaError β}
    (h : Carries R x y) : Carries R (Pass.ofExcept x).result (Pass.ofExcept y).result := by
  intro a ha
  obtain ⟨b, hb, hab⟩ := h a (Pass.result_ofExcept_eq_ok.mp ha)
  exact ⟨b, Pass.result_ofExcept_eq_ok.mpr hb, hab⟩

theorem carries_liftM {x : Except SchemaError α} {y : Except SchemaError β} (h : Carries R x y) :
    Carries R (liftM x : Pass α).result (liftM y : Pass β).result :=
  carries_ofExcept h

theorem carries_require {c : Bool} {e e' : SchemaError} :
    Carries Eq (Pass.require c e).result (Pass.require c e').result := by
  cases c with
  | true => exact carries_rfl _
  | false => exact carries_fail _ _

theorem carries_map {x : Except ε α} {y : Except ε β} {f : α → γ} {g : β → δ}
    (h : Carries (fun a b => S (f a) (g b)) x y) : Carries S (x.map f) (y.map g) := by
  intro c hc
  cases x with
  | error e => cases hc
  | ok a =>
    obtain ⟨b, rfl, hab⟩ := h a rfl
    cases hc
    exact ⟨g b, rfl, hab⟩

theorem carries_passMap {p : Pass α} {q : Pass β} {f : α → γ} {g : β → δ}
    (h : Carries (fun a b => S (f a) (g b)) p.result q.result) :
    Carries S (f <$> p).result (g <$> q).result := by
  rw [← bind_pure_comp, ← bind_pure_comp]
  exact h.passBind fun a b hab => carries_ok hab

theorem carries_throwBind {e : ε} {f : α → Except ε γ}
    {y : Except ε δ} : Carries S (throw e >>= f) y := by
  intro c hc
  obtain ⟨a, ha, -⟩ := bind_eq_ok.mp hc
  cases ha

theorem carries_failBind {e : SchemaError} {f : α → Pass γ} {y : Except Failure δ} :
    Carries S (Pass.fail e >>= f).result y := by
  intro c hc
  obtain ⟨a, ha, -⟩ := Pass.result_bind_eq_ok.mp hc
  cases ha

/-! ### Computations that do equally well -/

/-- Both computations have the same value, or neither has one. -/
def SameValue (x y : Except ε α) : Prop := x.toOption = y.toOption

theorem sameValue_rfl (x : Except ε α) : SameValue x x := rfl

theorem SameValue.symm {x y : Except ε α} (h : SameValue x y) : SameValue y x := Eq.symm h

theorem SameValue.carries {x y : Except ε α} (h : SameValue x y) : Carries Eq x y := by
  intro a ha
  exact ⟨a, toOption_eq_some.mp (h ▸ toOption_eq_some.mpr ha), rfl⟩

theorem sameValue_of_carries {x y : Except ε α} (h : Carries Eq x y)
    (h' : Carries Eq y x) : SameValue x y := by
  cases x with
  | ok a =>
    obtain ⟨_, rfl, rfl⟩ := h a rfl
    rfl
  | error e =>
    cases y with
    | ok b =>
      obtain ⟨_, hb, -⟩ := h' b rfl
      cases hb
    | error e' => rfl

theorem SameValue.passBind {p q : Pass α} {f g : α → Pass γ} (h : SameValue p.result q.result)
    (hfg : ∀ a, SameValue (f a).result (g a).result) :
    SameValue (p >>= f).result (q >>= g).result := by
  cases hp : p.result with
  | ok a =>
    cases hq : q.result with
    | ok b =>
      rw [SameValue, hp, hq] at h
      cases h
      rw [Pass.bind_of_ok f hp, Pass.bind_of_ok g hq]
      exact hfg a
    | error e =>
      rw [SameValue, hp, hq] at h
      cases h
  | error e =>
    cases hq : q.result with
    | ok b =>
      rw [SameValue, hp, hq] at h
      cases h
    | error e' =>
      rw [Pass.bind_of_error f hp, Pass.bind_of_error g hq]
      rfl

theorem sameValue_passBind {p : Pass α} {f g : α → Pass γ}
    (hfg : ∀ a, SameValue (f a).result (g a).result) :
    SameValue (p >>= f).result (p >>= g).result :=
  (sameValue_rfl p.result).passBind hfg

theorem SameValue.passMap {p q : Pass α} (h : SameValue p.result q.result) (f : α → γ) :
    SameValue (f <$> p).result (f <$> q).result := by
  rw [← bind_pure_comp, ← bind_pure_comp]
  exact h.passBind fun a => sameValue_rfl _

/-! ### Lists of steps -/

theorem carries_foldlM {step step' : α → γ → Except ε α} (xs : List γ) (a : α)
    (h : ∀ a c, Carries Eq (step a c) (step' a c)) :
    Carries Eq (xs.foldlM step a) (xs.foldlM step' a) := by
  induction xs generalizing a with
  | nil => exact carries_rfl _
  | cons c xs ih =>
    rw [List.foldlM_cons, List.foldlM_cons]
    exact (h a c).bindEq ih

theorem carries_passFoldlM {step step' : α → γ → Pass α} (xs : List γ) (a : α)
    (h : ∀ a c, Carries Eq (step a c).result (step' a c).result) :
    Carries Eq (xs.foldlM step a).result (xs.foldlM step' a).result := by
  induction xs generalizing a with
  | nil => exact carries_rfl _
  | cons c xs ih =>
    rw [List.foldlM_cons, List.foldlM_cons]
    exact (h a c).passBindEq ih

theorem carries_forM {step step' : γ → Except ε Unit} (xs : List γ)
    (h : ∀ c, Carries Eq (step c) (step' c)) : Carries Eq (xs.forM step) (xs.forM step') := by
  induction xs with
  | nil => exact carries_rfl _
  | cons c xs ih => exact (h c).bindEq fun _ => ih

theorem carries_passForM {step step' : γ → Pass Unit} (xs : List γ)
    (h : ∀ c, Carries Eq (step c).result (step' c).result) :
    Carries Eq (xs.forM step).result (xs.forM step').result := by
  induction xs with
  | nil => exact carries_rfl _
  | cons c xs ih => exact (h c).passBindEq fun _ => ih

end WireSchema
