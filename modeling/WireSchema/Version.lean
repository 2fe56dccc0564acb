import WireSchema.Literal.Integer
import WireSchema.Markup.Props

/-! # Versions

A window says in which versions of the protocol an element exists: from `since` on and before
`deprecated`. The window of an element lies inside that of its parent. A gate is what a caller asks
for: the version in effect and the oldest version of the other end.
-/

namespace WireSchema

/-- The greatest version, which stands for the end of a window that never ends. -/
def neverDeprecated : Nat := 4294967295

/-- The versions from `since` on and before `deprecated`. -/
structure Window where
  since : Nat
  deprecated : Nat
  deriving DecidableEq, Repr

namespace Window

/-- Every version. -/
def always : Window := ⟨0, neverDeprecated⟩

instance : Inhabited Window := ⟨always⟩

/-- The element exists in the version. -/
def contains (w : Window) (version : Nat) : Bool := w.since ≤ version && version < w.deprecated

/-- The window ends. -/
def isDeprecated (w : Window) : Bool := w.deprecated != neverDeprecated

/-- The window between two versions, of which the second one is greater. -/
def between (since deprecated : Nat) : Except SchemaError Window :=
  if deprecated ≤ since then .error (.versionWindow "" since deprecated)
  else .ok ⟨since, deprecated⟩

/-- The window, if it begins within the schema and lies inside that of the parent. -/
def within (name : String) (w parent : Window) (schemaVersion : Nat) :
    Except SchemaError Window :=
  if schemaVersion < w.since then .error (.sinceAboveSchema name w.since schemaVersion)
  else if w.since < parent.since then
    .error (.invalid name (.sinceBelowParent w.since parent.since))
  else if w.deprecated ≤ w.since then .error (.versionWindow name w.since w.deprecated)
  else if parent.deprecated < w.deprecated then
    .error (.invalid name (.deprecatedAboveParent w.deprecated parent.deprecated))
  else .ok w

/-- Reads the window of an element. A bound that is not given is the parent's. -/
def read (name : String) (props : Markup.Props) (parent : Window) (schemaVersion : Nat) :
    Except SchemaError Window := do
  let since ← props.parsedD "sinceVersion" Literal.word32? parent.since
  let deprecated ← props.parsedD "deprecated" Literal.word32? parent.deprecated
  within name ⟨since, deprecated⟩ parent schemaVersion

theorem within_eq_ok {name : String} {w w' parent : Window} {schemaVersion : Nat}
    (h : within name w parent schemaVersion = .ok w') :
    w' = w ∧ w.since ≤ schemaVersion ∧ parent.since ≤ w.since ∧ w.since < w.deprecated ∧
      w.deprecated ≤ parent.deprecated := by
  unfold within at h
  split at h
  · simp at h
  split at h
  · simp at h
  split at h
  · simp at h
  split at h
  · simp at h
  simp only [Except.ok.injEq] at h
  subst h
  exact ⟨rfl, by omega, by omega, by omega, by omega⟩

end Window

/-- The version in effect and the oldest one that the other end may have. -/
structure Gate where
  version : Nat
  minRemoteVersion : Nat
  deriving DecidableEq, Repr

/-- The element exists already at the version in effect, and still for some version of the other end
that is supported. -/
def Gate.admits (g : Gate) (w : Window) : Bool :=
  w.since ≤ g.version && g.minRemoteVersion < w.deprecated

end WireSchema
