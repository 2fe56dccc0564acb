import WireSchema.Proofs.Finding.Pass

/-! # What passes give

A pass *yields* values with a property if every value that it ends with has it. What a step yields
is known in the steps that follow it (`Yields.bind`); a step whose value says nothing about the
property is passed over (`yields_bind`). -/

namespace WireSchema.Pass

variable {α β : Type} {P Q : α → Prop} {R : β → Prop} {p : Pass α} {f : α → Pass β}

/-- Every value that the pass ends with has the property. -/
def Yields (p : Pass α) (Q : α → Prop) : Prop := ∀ a, p.result = .ok a → Q a

theorem yields_pure {a : α} (h : Q a) : Yields (pure a) Q := by
  intro b hb
  rw [result_pure, Except.ok.injEq] at hb
  rw [← hb]
  exact h

theorem yields_fail (e : SchemaError) : Yields (fail e) Q := by
  intro a ha
  simp [fail] at ha

theorem yields_endless : Yields endless Q := by
  intro a ha
  simp [endless] at ha

theorem yields_ofExcept {x : Except SchemaError α} (h : ∀ a, x = .ok a → Q a) :
    Yields (ofExcept x) Q := by
  intro a ha
  exact h a (result_ofExcept_eq_ok.mp ha)

theorem yields_liftM {x : Except SchemaError α} (h : ∀ a, x = .ok a → Q a) :
    Yields (liftM x) Q :=
  yields_ofExcept h

theorem yields_require (condition : Bool) (e : SchemaError) :
    (require condition e).Yields fun _ => condition = true := by
  intro u hu
  cases condition with
  | true => rfl
  | false => simp [require, fail] at hu

theorem Yields.imp (h : p.Yields P) (hPQ : ∀ a, P a → Q a) : p.Yields Q :=
  fun a ha => hPQ a (h a ha)

theorem Yields.bind (hp : p.Yields P) (hf : ∀ a, P a → (f a).Yields R) : (p >>= f).Yields R := by
  intro b hb
  obtain ⟨a, ha, hb⟩ := result_bind_eq_ok.mp hb
  exact hf a (hp a ha) b hb

theorem yields_bind (hf : ∀ a, (f a).Yields R) : (p >>= f).Yields R := by
  intro b hb
  obtain ⟨a, -, hb⟩ := result_bind_eq_ok.mp hb
  exact hf a b hb

theorem yields_map {g : α → β} (h : p.Yields fun a => R (g a)) : (g <$> p).Yields R := by
  rw [← bind_pure_comp]
  exact h.bind fun _ ha => yields_pure ha

theorem Yields.settled (h : p.Yields Q) (line : Nat) :
    (p.settled line).Yields fun x => ∀ a, x = some a → Q a := by
  rintro x hx a rfl
  exact h a (result_settled_eq_some.mp hx)

end WireSchema.Pass
