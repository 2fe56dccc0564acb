import WireSchema.Proofs.Finding.Law

/-! # Passes that come to an end

A pass *refines* to another one if the second is the same wherever the first comes to an end
(`Pass.Refines`). A pass without end refines to each, so that one which was given more to go on with
keeps what it came to with less. Steps refine one after the other (`refines_law`). -/

namespace WireSchema.Pass

variable {α β : Type} {p q : Pass α} {f g : α → Pass β}

/-- The pass comes to an end, with a value or an error. -/
def Ends (p : Pass α) : Prop := p.result ≠ .error .endless

/-- If the first pass comes to an end, the second one is the same. -/
def Refines (p q : Pass α) : Prop := p.Ends → q = p

theorem refines_rfl (p : Pass α) : p.Refines p := fun _ => rfl

theorem not_ends_endless : ¬ (endless : Pass α).Ends := fun h => h rfl

theorem refines_endless (q : Pass α) : (endless : Pass α).Refines q :=
  fun h => absurd h not_ends_endless

theorem Refines.ends (h : p.Refines q) (hp : p.Ends) : q.Ends := by
  rw [h hp]
  exact hp

theorem Refines.trans {r : Pass α} (h : p.Refines q) (h' : q.Refines r) : p.Refines r := by
  intro hp
  rw [h' (h.ends hp), h hp]

/-- A sequence of passes ends only if the first one does. -/
theorem Ends.of_bind (h : (p >>= f).Ends) : p.Ends := by
  intro hp
  exact h (result_bind_of_error f hp)

theorem Refines.bind (hpq : p.Refines q) (hfg : ∀ a, p.result = .ok a → (f a).Refines (g a)) :
    (p >>= f).Refines (q >>= g) := by
  intro hends
  rw [hpq hends.of_bind]
  cases hp : p.result with
  | error failure => rw [bind_of_error f hp, bind_of_error g hp]
  | ok a =>
    have hrest : (f a).Ends := by
      intro hf
      exact hends (by rw [bind_of_ok f hp, hf])
    rw [bind_of_ok f hp, bind_of_ok g hp, hfg a hp hrest]

/-- A step that both make. -/
theorem refines_bind (hfg : ∀ a, p.result = .ok a → (f a).Refines (g a)) :
    (p >>= f).Refines (p >>= g) :=
  (refines_rfl p).bind hfg

theorem Refines.settled (h : p.Refines q) (line : Nat) :
    (p.settled line).Refines (q.settled line) := by
  intro hends
  have hp : p.Ends := by
    intro hp
    refine hends ?_
    unfold Pass.settled
    rw [hp]
  rw [h hp]

theorem refines_law : Law fun _ p q => p.Refines q where
  refl_ofExcept _ := refines_rfl _
  refl_warnAll _ := refines_rfl _
  bindOk := Refines.bind
  settled := Refines.settled

end WireSchema.Pass
