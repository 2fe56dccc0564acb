import WireSchema.Field.Validation
import WireSchema.Proofs.Field.Members

/-! # Where counts and lengths are read

The prefixes of a field are read from other fields: from one that is declared inside, from one in
the arena, or from a sibling (`Prefix.source?`). What counts is the kind of the field at the end of
the references that lead there (`Arena.endKind?`). -/

namespace WireSchema

/-- Where the lengths and counts of a body are read. -/
def Body.prefixes : Body → List Prefix
  | .string s => s.lengthPrefix.toList.map .named
  | .data d => d.lengthPrefix.toList.map .named
  | .list _ _ c l el _ => c.toList ++ (l.toList ++ el.toList)
  | _ => []

/-- The field that is read for a prefix. -/
def Prefix.source? (a : Arena) (siblings : Siblings) : Prefix → Option Field
  | .inline f => some f
  | .named (.path r) => a.target? r
  | .named (.sibling name) => siblings name

/-- The kind of the field at the end of the references that begin with `f`. -/
def Arena.endKind? (a : Arena) (f : Field) : Option FieldKind := (a.resolved f).map Field.kind

theorem mem_prefixInner_iff {p : Option Prefix} {g : Field} :
    g ∈ prefixInner p ↔ Prefix.inline g ∈ p.toList := by
  rcases p with _ | p
  · simp [prefixInner]
  · cases p <;> simp [prefixInner]

theorem mem_prefixOwnRefs_iff {p : Option Prefix} {r : FieldRef} :
    r ∈ prefixOwnRefs p ↔ Prefix.named (.path r) ∈ p.toList := by
  rcases p with _ | p
  · simp [prefixOwnRefs]
  · rcases p with f | ⟨r' | name⟩ <;> simp [prefixOwnRefs, PrefixName.refs, eq_comm]

namespace Field

variable {f g : Field} {r : FieldRef}

theorem mem_inner_of_mem_prefixes (h : Prefix.inline g ∈ f.body.prefixes) : g ∈ f.inner := by
  obtain ⟨core, body⟩ := f
  change Prefix.inline g ∈ body.prefixes at h
  change g ∈ body.inner
  cases body with
  | list element count c l el fixed =>
    simp only [Body.prefixes, List.mem_append, ← mem_prefixInner_iff] at h
    simp only [Body.inner, List.mem_append]
    exact Or.inr h
  | _ => simp [Body.prefixes] at h

theorem mem_ownRefs_of_mem_prefixes (h : Prefix.named (.path r) ∈ f.body.prefixes) :
    r ∈ f.ownRefs := by
  have hnamed {p : Option PrefixName} (hp : Prefix.named (.path r) ∈ p.toList.map .named) :
      r ∈ namedRefs p := by
    obtain ⟨q, hq, heq⟩ := List.mem_map.mp hp
    cases heq
    rw [Option.mem_toList.mp hq]
    exact List.mem_singleton_self r
  obtain ⟨core, body⟩ := f
  change Prefix.named (.path r) ∈ body.prefixes at h
  change r ∈ body.ownRefs
  cases body with
  | list element count c l el fixed =>
    simp only [Body.prefixes, List.mem_append, ← mem_prefixOwnRefs_iff] at h
    simp only [Body.ownRefs, List.mem_append]
    exact Or.inr h
  | string s => exact hnamed h
  | data d => exact hnamed h
  | _ => simp [Body.prefixes] at h

end Field

end WireSchema
