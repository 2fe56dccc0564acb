import WireSchema.Proofs.Schema.Windows
import WireSchema.Proofs.Session.Lookup

/-! # Versions in a session

In every run, whatever has a window exists only where each part exists that it stands in, and a gate
that admits it admits these as well (`windows_nest`). -/

namespace WireSchema.Session

open Markup Schema

variable {s : Session} {schema : Schema} {x y : Versioned}

theorem Sourced.sitsIn (h : s.Sourced) (hschema : s.schema = some schema)
    (hx : schema.Declares x) : x.SitsIn .always schema.version := by
  obtain ⟨built, hbuilt, rfl | rfl⟩ := h schema hschema
  · exact hbuilt.sitsIn hx
  · rw [version_link]
    exact hbuilt.sitsIn_link hx

/-- **Windows nest.** In every run, before and after the check, the window of each part of the
schema has a version in it and begins within the schema. What stands inside of a part at any depth
has its window inside of that of the part: it exists only in versions in which the part exists, and
each gate that admits it admits the part. A gate admits a window if and only if the window has begun
at the version in effect and some supported version of the other end lies in it. -/
theorem windows_nest (config : Config) (calls : List Call) (schema : Schema) (x y : Versioned)
    (h : (after config calls).schema = some schema) (hx : schema.HasPart x) (hy : y.Within x) :
    y.window.since < y.window.deprecated ∧ y.window.since ≤ schema.version ∧
    y.window.deprecated ≤ neverDeprecated ∧
    x.window.since ≤ y.window.since ∧ y.window.deprecated ≤ x.window.deprecated ∧
    (∀ v, y.window.contains v = true → x.window.contains v = true) ∧
    (∀ g : Gate, g.admits y.window = true → g.admits x.window = true) ∧
    ∀ (g : Gate) (w : Window), w.since < w.deprecated → (g.admits w = true ↔
      w.since ≤ g.version ∧ ∃ remote, g.minRemoteVersion ≤ remote ∧ w.contains remote = true) := by
  obtain ⟨z, hz, hxz⟩ := hx
  have hsits := (sourced_after config calls).sitsIn h hz
  have hy_inside_x := ((hsits.of_within hxz).of_within hy).1
  have hx_inside := (hsits.of_within hxz).1.trans hsits.1
  exact ⟨hy_inside_x.since_lt_deprecated, hy_inside_x.since_le_version,
    (hy_inside_x.trans hx_inside).deprecated_le_parent, hy_inside_x.parent_since_le,
    hy_inside_x.deprecated_le_parent, fun v => hy_inside_x.contains,
    fun g => Gate.admits_parent hy_inside_x, fun g w => Gate.admits_iff_exists_remote⟩

/-- A message with an enumeration, which narrows the window, as does its value. -/
def versionedDocument : Element :=
  ⟨"schema", [("name", "P"), ("version", "5")],
    [⟨"message", [("name", "M"), ("id", "1"), ("sinceVersion", "1"), ("deprecated", "4")],
      [⟨"enum", [("name", "E"), ("type", "uint8"), ("sinceVersion", "2")],
        [⟨"validValue", [("name", "V"), ("val", "0"), ("sinceVersion", "3")], [], "", 4⟩],
        "", 3⟩],
      "", 2⟩],
    "", 1⟩

/-- A session that has taken and checked `versionedDocument`. -/
def versionedSession : Session :=
  after ⟨none, 0, none, false⟩ [.element versionedDocument, .validate]

/-- The value exists, and is admitted, only where the message is. -/
theorem windows_of_versionedSession :
    ∃ (schema : Schema) (m : Message) (f : Field) (v : Special Int),
      versionedSession.schema = some schema ∧ schema.HasPart (.message m) ∧
      (Versioned.integer v).Within (.field f) ∧ (Versioned.field f).Within (.message m) ∧
      m.window = ⟨1, 4⟩ ∧ f.window = ⟨2, 4⟩ ∧ v.window = ⟨3, 4⟩ ∧
      (∀ n, v.window.contains n = true → m.window.contains n = true) ∧
      ∀ g : Gate, g.admits v.window = true → g.admits m.window = true := by
  have heval : (versionedSession.schema.bind fun schema => schema.root.messages.head?.bind fun m =>
      m.fields.head?.bind fun f => f.enum?.bind fun e => e.values.head?.map fun v =>
        (m.window, f.window, v.window)) = some (⟨1, 4⟩, ⟨2, 4⟩, ⟨3, 4⟩) := by decide +kernel
  simp only [Option.bind_eq_some_iff, Option.map_eq_some_iff, Prod.mk.injEq] at heval
  obtain ⟨schema, hschema, m, hm, f, hf, e, he, v, hv, hmw, hfw, hvw⟩ := heval
  have hpart : schema.HasPart (.message m) :=
    ⟨.message m, ⟨schema.root, .refl, List.mem_of_mem_head? hm⟩, .refl⟩
  have hfield : (Versioned.field f).Within (.message m) :=
    .single (List.mem_map_of_mem (List.mem_of_mem_head? hf))
  have hvalue : (Versioned.integer v).Within (.field f) := by
    refine .single (List.mem_append_right _ ?_)
    unfold Field.enum? at he
    split at he
    · rename_i hbody
      cases he
      rw [hbody]
      exact List.mem_map_of_mem (List.mem_of_mem_head? hv)
    · cases he
  obtain ⟨-, -, -, -, -, hcontains, hadmits, -⟩ :=
    windows_nest _ _ schema _ _ hschema hpart (hfield.trans hvalue)
  exact ⟨schema, m, f, v, hschema, hpart, hvalue, hfield, hmw, hfw, hvw, hcontains, hadmits⟩

end WireSchema.Session
