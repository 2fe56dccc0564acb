import WireSchema.Proofs.Finding.Pass

/-! # Checks that say what they found

A check is *strict* if it has a value only where it found no error, and *candid* if it always ends
with a flag that says just this. A strict check whose failure is reported is candid
(`Strict.candid_succeeds`), and so are candid checks one after the other if their flags are put
together (`Upholds.bind`). -/

namespace WireSchema.Pass

variable {α β : Type} {p : Pass α} {q : Pass Bool} {f : α → Pass β} {flag : Bool}

/-- The pass has a value only if it found no error. -/
def Strict (p : Pass α) : Prop := ∀ a, p.result = .ok a → p.WarnsOnly

/-- The pass ends with a flag, which is set just when it found no error. -/
def Candid (p : Pass Bool) : Prop := ∃ ok, p.result = .ok ok ∧ (ok = true ↔ p.WarnsOnly)

/-- The pass ends with a flag, which is set just when `flag` is and the pass found no error. -/
def Upholds (flag : Bool) (p : Pass Bool) : Prop :=
  ∃ ok, p.result = .ok ok ∧ (ok = true ↔ flag = true ∧ p.WarnsOnly)

theorem upholds_true_iff : q.Upholds true ↔ q.Candid := by simp [Upholds, Candid]

theorem warnsOnly_bind_of_ok {a : α} (h : p.result = .ok a) :
    (p >>= f).WarnsOnly ↔ p.WarnsOnly ∧ (f a).WarnsOnly := by
  unfold WarnsOnly
  rw [bind_of_ok f h]
  exact List.forall_mem_append

/-! ### Strict passes -/

theorem WarnsOnly.strict (h : p.WarnsOnly) : p.Strict := fun _ _ => h

theorem strict_pure (a : α) : Strict (pure a) := (warnsOnly_pure a).strict

theorem strict_require (condition : Bool) (e : SchemaError) : Strict (require condition e) :=
  (warnsOnly_require condition e).strict

theorem strict_fail (e : SchemaError) : Strict (fail e : Pass α) := by
  intro a h
  simp [fail] at h

theorem Strict.bind (hp : p.Strict) (hf : ∀ a, (f a).Strict) : (p >>= f).Strict := by
  intro b h
  obtain ⟨a, ha, hb⟩ := result_bind_eq_ok.mp h
  exact (warnsOnly_bind_of_ok ha).mpr ⟨hp a ha, hf a b hb⟩

/-! ### Candid passes -/

theorem upholds_pure (flag : Bool) : Upholds flag (pure flag) :=
  ⟨flag, rfl, by simp [warnsOnly_pure]⟩

theorem candid_pure_true : Candid (pure true) := upholds_true_iff.mp (upholds_pure true)

/-- A flag that is put to the ones before it. -/
theorem Upholds.bind {f : Bool → Pass Bool} (hq : q.Candid)
    (hf : ∀ ok, (f ok).Upholds (flag && ok)) : (q >>= f).Upholds flag := by
  obtain ⟨ok, hok, hiff⟩ := hq
  obtain ⟨ok', hok', hiff'⟩ := hf ok
  refine ⟨ok', result_bind_eq_ok.mpr ⟨ok, hok, hok'⟩, ?_⟩
  rw [hiff', warnsOnly_bind_of_ok hok, Bool.and_eq_true, hiff, and_assoc]

theorem Candid.bind {f : Bool → Pass Bool} (hq : q.Candid) (hf : ∀ ok, (f ok).Upholds ok) :
    (q >>= f).Candid :=
  upholds_true_iff.mp (Upholds.bind hq fun ok => by rw [Bool.true_and]; exact hf ok)

/-- **A strict check is candid once its failure is reported.** -/
theorem Strict.candid_succeeds {c : Pass Unit} (h : c.Strict) (line : Nat) :
    (c.succeeds line).Candid := by
  cases hr : c.result with
  | ok u =>
    refine ⟨true, by simp [succeeds, settle, hr], iff_of_true rfl ?_⟩
    intro x hx
    exact h u hr x (by simpa [succeeds, settle, hr] using hx)
  | error failure =>
    refine ⟨false, by simp [succeeds, settle, hr], iff_of_false Bool.false_ne_true fun hw => ?_⟩
    obtain ⟨x, hx, herr⟩ := exists_isError_of_settle (settle_fst_eq_none hr line)
    rw [hw x hx] at herr
    exact Bool.noConfusion herr

/-- A check that goes on only where the flag of a candid one is set. -/
theorem Candid.strict_require (hq : q.Candid) (e : SchemaError) :
    (q >>= fun ok => require ok e).Strict := by
  intro u h
  obtain ⟨ok, hok, hu⟩ := result_bind_eq_ok.mp h
  obtain ⟨ok', hok', hiff⟩ := hq
  rw [hok, Except.ok.injEq] at hok'
  subst hok'
  refine (warnsOnly_bind_of_ok hok).mpr ⟨hiff.mp ?_, warnsOnly_require ok e⟩
  cases ok with
  | true => rfl
  | false => simp [require, fail] at hu

/-- Two candid checks, of which neither may have found an error. -/
theorem Candid.strict_require_both {p q : Pass Bool} (hp : p.Candid) (hq : q.Candid)
    (e : SchemaError) :
    (p >>= fun ok => q >>= fun ok' => require (ok && ok') e).Strict := by
  have hboth : (p >>= fun ok => q >>= fun ok' => pure (ok && ok')).Candid :=
    hp.bind fun ok => Upholds.bind hq fun ok' => upholds_pure _
  have h := hboth.strict_require e
  simpa only [bind_assoc, pure_bind] using h

/-- An error about a part is found, whatever the rest says. -/
theorem Candid.report (hq : q.Candid) (line : Nat) (e : SchemaError) :
    (Pass.report line e >>= fun _ => q >>= fun _ => pure false).Candid := by
  obtain ⟨ok, hok, -⟩ := hq
  have hrest : (q >>= fun _ => (pure false : Pass Bool)).result = .ok false :=
    result_bind_eq_ok.mpr ⟨ok, hok, rfl⟩
  refine ⟨false, result_bind_eq_ok.mpr ⟨(), rfl, hrest⟩,
    iff_of_false Bool.false_ne_true fun hw => ?_⟩
  have hreport := ((warnsOnly_bind_of_ok rfl).mp hw).1
  exact Bool.noConfusion (hreport _ (List.mem_singleton_self _))

end WireSchema.Pass
