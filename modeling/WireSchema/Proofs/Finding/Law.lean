import WireSchema.Proofs.Finding.Pass

/-! # Relations that the steps of passes keep

A relation between passes is a *law* if it holds of each single step and itself, and of related
passes one after the other (`Pass.Law`). Two passes that are the same but for some parts are then
related as soon as these parts are. -/

namespace WireSchema.Pass

/-- The relation holds of single steps, and of sequences of related passes. -/
structure Law (R : ∀ ⦃α : Type⦄, Pass α → Pass α → Prop) : Prop where
  refl_ofExcept {α : Type} (x : Except SchemaError α) : R (ofExcept x) (ofExcept x)
  refl_warnAll (ws : List (Nat × Warning)) : R (warnAll ws) (warnAll ws)
  /-- What a pass comes to is known in the passes after it. -/
  bindOk {α β : Type} {p q : Pass α} {f g : α → Pass β} (hpq : R p q)
    (hfg : ∀ a, p.result = .ok a → R (f a) (g a)) : R (p >>= f) (q >>= g)
  settled {α : Type} {p q : Pass α} (hpq : R p q) (line : Nat) : R (p.settled line) (q.settled line)

namespace Law

variable {R : ∀ ⦃α : Type⦄, Pass α → Pass α → Prop} (law : Law R) {α β γ : Type} {p q : Pass α}
include law

/-! ### Single steps -/

theorem refl_pure (a : α) : R (pure a) (pure a) := law.refl_ofExcept (.ok a)

theorem refl_fail (e : SchemaError) : R (fail e : Pass α) (fail e) := law.refl_ofExcept (.error e)

theorem refl_warn (line : Nat) (w : Warning) : R (warn line w) (warn line w) :=
  law.refl_warnAll [(line, w)]

theorem refl_require (condition : Bool) (e : SchemaError) :
    R (require condition e) (require condition e) := by
  cases condition with
  | true => exact law.refl_pure ()
  | false => exact law.refl_fail e

/-! ### Steps one after the other -/

theorem bind {f g : α → Pass β} (hpq : R p q) (hfg : ∀ a, R (f a) (g a)) :
    R (p >>= f) (q >>= g) :=
  law.bindOk hpq fun a _ => hfg a

theorem liftM_bind {x : Except SchemaError α} {f g : α → Pass β} (hfg : ∀ a, R (f a) (g a)) :
    R ((liftM x : Pass α) >>= f) ((liftM x : Pass α) >>= g) :=
  law.bind (law.refl_ofExcept x) hfg

theorem liftM_bindOk {x : Except SchemaError α} {f g : α → Pass β}
    (hfg : ∀ a, x = .ok a → R (f a) (g a)) :
    R ((liftM x : Pass α) >>= f) ((liftM x : Pass α) >>= g) :=
  law.bindOk (law.refl_ofExcept x) fun a ha => hfg a (result_ofExcept_eq_ok.mp ha)

theorem require_bind {condition : Bool} {e : SchemaError} {f g : Unit → Pass β}
    (hfg : ∀ u, R (f u) (g u)) : R (require condition e >>= f) (require condition e >>= g) :=
  law.bind (law.refl_require condition e) hfg

theorem map (hpq : R p q) (g : α → β) : R (g <$> p) (g <$> q) := by
  rw [← bind_pure_comp, ← bind_pure_comp]
  exact law.bind hpq fun a => law.refl_pure (g a)

theorem forM {f g : γ → Pass Unit} {xs : List γ} (hfg : ∀ x, R (f x) (g x)) :
    R (xs.forM f) (xs.forM g) := by
  induction xs with
  | nil => exact law.refl_pure ()
  | cons x xs ih => exact law.bind (hfg x) fun _ => ih

theorem foldlM {f g : β → γ → Pass β} {xs : List γ} {b : β} (hfg : ∀ b x, R (f b x) (g b x)) :
    R (xs.foldlM f b) (xs.foldlM g b) := by
  induction xs generalizing b with
  | nil => exact law.refl_pure b
  | cons x xs ih =>
    rw [List.foldlM_cons, List.foldlM_cons]
    exact law.bind (hfg b x) fun _ => ih

end Law

end WireSchema.Pass
