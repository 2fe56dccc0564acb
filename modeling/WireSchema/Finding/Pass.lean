import WireSchema.Finding.Finding

/-! # Passes

A pass reads or checks a part of a schema. It leaves findings and has a value or the error that
ended it; the findings stay when it fails. Passes form a monad: the next one runs only after a
value, and its findings follow. `Pass.settle` ends the reach of an error: it becomes a finding at a
line.

Some elements have no reading, since their members reuse each other without end. Then a pass has
neither a value nor an error (`Failure.endless`). This is not an error that can be reported:
`Pass.settled` goes on after an error only.
-/

namespace WireSchema

/-- Why there is no value: an error was met, or reading goes on without end. -/
inductive Failure
  | error (e : SchemaError)
  | endless
  deriving DecidableEq, Repr

/-- The finding about it. -/
def Failure.cause : Failure → Cause
  | .error e => .error e
  | .endless => .endless

/-- Findings in the order they were made, and a value, unless the pass stopped before it had one. -/
structure Pass (α : Type) where
  findings : List Finding
  result : Except Failure α

namespace Pass

variable {α β γ : Type}

/-- A value without findings. -/
protected def pure (a : α) : Pass α := ⟨[], .ok a⟩

/-- The second pass on the value of the first. -/
protected def bind (p : Pass α) (f : α → Pass β) : Pass β :=
  match p.result with
  | .ok a => ⟨p.findings ++ (f a).findings, (f a).result⟩
  | .error failure => ⟨p.findings, .error failure⟩

instance : Monad Pass where
  pure := Pass.pure
  bind := Pass.bind

/-- The pass ends with an error. -/
def fail (e : SchemaError) : Pass α := ⟨[], .error (.error e)⟩

/-- The pass has no end. -/
def endless : Pass α := ⟨[], .error .endless⟩

/-- The pass goes on after a warning. -/
def warn (line : Nat) (w : Warning) : Pass Unit := ⟨[⟨line, .warning w⟩], .ok ()⟩

/-- The pass goes on after an error that concerns a part only. -/
def report (line : Nat) (e : SchemaError) : Pass Unit := ⟨[⟨line, .error e⟩], .ok ()⟩

/-- The pass goes on after all of the warnings. -/
def warnAll (ws : List (Nat × Warning)) : Pass Unit :=
  ⟨ws.map fun w => ⟨w.1, .warning w.2⟩, .ok ()⟩

/-- A value that may be missing, with the error to end with if it is. -/
def ofOption (e : SchemaError) : Option α → Pass α
  | some a => pure a
  | none => fail e

/-- A value or an error, without findings. -/
def ofExcept : Except SchemaError α → Pass α
  | .ok a => pure a
  | .error e => fail e

instance : MonadLift (Except SchemaError) Pass := ⟨ofExcept⟩

/-- The pass ends with an error unless the condition holds. -/
def require (condition : Bool) (e : SchemaError) : Pass Unit :=
  if condition then pure () else fail e

/-- The value of a pass, if it has one, and its findings; why it has none is one more finding at
`line`. -/
def settle (line : Nat) (p : Pass α) : Option α × List Finding :=
  match p.result with
  | .ok a => (some a, p.findings)
  | .error failure => (none, p.findings ++ [⟨line, failure.cause⟩])

/-- A pass that does not fail, with the value of `p` if it had one. If `p` has no end, neither has
this. -/
def settled (line : Nat) (p : Pass α) : Pass (Option α) :=
  match p.result with
  | .ok a => ⟨p.findings, .ok (some a)⟩
  | .error (.error e) => ⟨p.findings ++ [⟨line, .error e⟩], .ok none⟩
  | .error .endless => ⟨p.findings, .error .endless⟩

/-- Whether the check `p` had no error, which is reported at `line`. -/
def succeeds (line : Nat) (p : Pass α) : Pass Bool :=
  ⟨(p.settle line).2, .ok (p.settle line).1.isSome⟩

@[simp] theorem findings_pure (a : α) : (pure a : Pass α).findings = [] := rfl

@[simp] theorem result_pure (a : α) : (pure a : Pass α).result = .ok a := rfl

theorem bind_of_ok {p : Pass α} {a : α} (f : α → Pass β) (h : p.result = .ok a) :
    (p >>= f) = ⟨p.findings ++ (f a).findings, (f a).result⟩ := by
  show Pass.bind p f = _
  simp [Pass.bind, h]

theorem bind_of_error {p : Pass α} {failure : Failure} (f : α → Pass β)
    (h : p.result = .error failure) : (p >>= f) = ⟨p.findings, .error failure⟩ := by
  show Pass.bind p f = _
  simp [Pass.bind, h]

theorem bind_assoc (p : Pass α) (f : α → Pass β) (g : β → Pass γ) :
    (p >>= f) >>= g = p >>= fun a => f a >>= g := by
  show Pass.bind (Pass.bind p f) g = Pass.bind p fun a => Pass.bind (f a) g
  obtain ⟨fs, r⟩ := p
  cases r with
  | error e => rfl
  | ok a =>
    simp only [Pass.bind]
    cases (f a).result <;> simp

theorem pure_bind (a : α) (f : α → Pass β) : pure a >>= f = f a := by
  show Pass.bind (Pass.pure a) f = f a
  simp [Pass.bind, Pass.pure]

theorem id_map (p : Pass α) : id <$> p = p := by
  show Pass.bind p Pass.pure = p
  obtain ⟨fs, r⟩ := p
  cases r <;> simp [Pass.bind, Pass.pure]

instance : LawfulMonad Pass := LawfulMonad.mk' Pass id_map pure_bind bind_assoc

end Pass

end WireSchema
