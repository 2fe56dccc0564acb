import WireSchema.Proofs.Field.Arena
import WireSchema.Proofs.Literal.Path
import WireSchema.Proofs.Namespace.Nesting
import WireSchema.Proofs.Text.Sorted

/-! # Finding fields by their paths

In a namespace that is *orderly* for an arena, every listed field stands in the arena under the path
that its name has from the root, and nested namespaces have the paths of their names. If all
namespaces are orderly and every place of the arena is listed somewhere, the path of a field leads
to that field, and to no other one (`findField?_eq_some_iff`). -/

namespace WireSchema.Namespace

open Relation

/-- The lists of fields and namespaces are in order, and their entries have the right paths. -/
structure Orderly (a : Arena) (ns : Namespace) : Prop where
  sorted_fields : SortedBy Prod.fst ns.fields
  field : ∀ p ∈ ns.fields, Literal.isName p.1 = true ∧
    ∃ f, a.get? p.2 = some f ∧ f.externalRef = qualify ns.externalRef p.1
  sorted_namespaces : SortedBy Namespace.name ns.namespaces
  nested : ∀ n ∈ ns.namespaces, Literal.isName n.name = true ∧
    n.externalRef = qualify ns.externalRef n.name

/-- The namespace and all namespaces within it are orderly. -/
def AllOrderly (a : Arena) (ns : Namespace) : Prop := ∀ n : Namespace, n.Within ns → n.Orderly a

theorem allOrderly_iff {a : Arena} {ns : Namespace} :
    ns.AllOrderly a ↔ ns.Orderly a ∧ ∀ n ∈ ns.namespaces, n.AllOrderly a := by
  constructor
  · intro h
    exact ⟨h ns ReflTransGen.refl, fun n hn m hm => h m (ReflTransGen.head hn hm)⟩
  · rintro ⟨hns, hall⟩ m hm
    rcases ReflTransGen.cases_head hm with rfl | ⟨n, hn, hm⟩
    · exact hns
    · exact hall n hn m hm

/-- The place of the field that the names lead to. -/
def fieldAt? (ns : Namespace) (path : List String) : Option FieldId :=
  (ns.scope? path).bind fun p => p.1.ownField? p.2

theorem scope?_cons {ns : Namespace} {first : String} {rest : List String} (h : rest ≠ []) :
    ns.scope? (first :: rest) = (ns.child? first).bind fun n => n.scope? rest := by
  cases rest with
  | nil => exact absurd rfl h
  | cons second rest => rfl

theorem allFieldsIn_eq_flatMap (ns : List Namespace) : allFieldsIn ns = ns.flatMap allFields := by
  induction ns with
  | nil => simp [allFieldsIn]
  | cons n ns ih => simp [allFieldsIn, ih]

theorem allFields_eq (ns : Namespace) :
    ns.allFields = ns.fields.map (·.2) ++ ns.namespaces.flatMap allFields := by
  obtain ⟨name, externalRef, description, fields, interfaces, messages, frames, namespaces⟩ := ns
  rw [allFields, allFieldsIn_eq_flatMap]

section
variable {a : Arena} {ns : Namespace}

/-- What a path leads to has that path. -/
theorem scopeSegments_of_scope? {path : List String} {n : Namespace} {last : String}
    (ho : ns.AllOrderly a) (h : ns.scope? path = some (n, last)) :
    n.Orderly a ∧ Literal.scopeSegments n.externalRef ++ [last] =
      Literal.scopeSegments ns.externalRef ++ path := by
  induction path generalizing ns with
  | nil => simp [scope?] at h
  | cons first rest ih =>
    obtain ⟨hns, hall⟩ := allOrderly_iff.mp ho
    cases rest with
    | nil =>
      rw [scope?, Option.some.injEq, Prod.mk.injEq] at h
      obtain ⟨rfl, rfl⟩ := h
      exact ⟨hns, rfl⟩
    | cons second rest =>
      rw [scope?_cons (List.cons_ne_nil _ _), Option.bind_eq_some_iff] at h
      obtain ⟨c, hc, h⟩ := h
      obtain ⟨hmem, rfl⟩ := (findNamed?_eq_some_iff hns.sorted_namespaces).mp hc
      obtain ⟨hname, href⟩ := hns.nested c hmem
      obtain ⟨hn, hsegs⟩ := ih (hall c hmem) h
      refine ⟨hn, ?_⟩
      rw [hsegs, href, Literal.scopeSegments_qualify hname]
      simp

/-- **The field that names lead to has these names as its path.** -/
theorem segments_of_fieldAt? {path : List String} {id : FieldId} (ho : ns.AllOrderly a)
    (h : ns.fieldAt? path = some id) :
    ∃ f, a.get? id = some f ∧
      Literal.segments f.externalRef = Literal.scopeSegments ns.externalRef ++ path := by
  obtain ⟨⟨n, last⟩, hscope, hown⟩ := Option.bind_eq_some_iff.mp h
  obtain ⟨hn, hsegs⟩ := scopeSegments_of_scope? ho hscope
  obtain ⟨p, hp, rfl⟩ := Option.map_eq_some_iff.mp hown
  obtain ⟨hmem, rfl⟩ := (findNamed?_eq_some_iff hn.sorted_fields).mp hp
  obtain ⟨hname, f, hf, href⟩ := hn.field p hmem
  refine ⟨f, hf, ?_⟩
  rw [href, Literal.segments_qualify hname, hsegs]

/-- **Names lead to every field that is listed.** -/
theorem exists_fieldAt? {id : FieldId} (ho : ns.AllOrderly a) (h : id ∈ ns.allFields) :
    ∃ path, path ≠ [] ∧ ns.fieldAt? path = some id := by
  induction ns using nested_induction with
  | step ns ih =>
    obtain ⟨hns, hall⟩ := allOrderly_iff.mp ho
    rw [allFields_eq, List.mem_append, List.mem_map, List.mem_flatMap] at h
    rcases h with ⟨p, hp, rfl⟩ | ⟨n, hn, h⟩
    · refine ⟨[p.1], List.cons_ne_nil _ _, ?_⟩
      unfold fieldAt? ownField?
      rw [scope?, Option.bind_some, (findNamed?_eq_some_iff hns.sorted_fields).mpr ⟨hp, rfl⟩]
      rfl
    · obtain ⟨path, hne, hpath⟩ := ih n hn (hall n hn) h
      refine ⟨n.name :: path, List.cons_ne_nil _ _, ?_⟩
      unfold fieldAt? at *
      rw [scope?_cons hne, child?,
        (findNamed?_eq_some_iff hns.sorted_namespaces).mpr ⟨hn, rfl⟩]
      exact hpath

/-- **A path leads to the one field that has it.** -/
theorem findField?_eq_some_iff (ho : ns.AllOrderly a) (hroot : ns.externalRef = "")
    (hall : ∀ id < a.size, id ∈ ns.allFields) {path : String} {id : FieldId} :
    ns.findField? path = some id ↔ ∃ f, a.get? id = some f ∧ f.externalRef = path := by
  have hscope : Literal.scopeSegments ns.externalRef = [] := by
    rw [hroot]
    rfl
  constructor
  · intro h
    obtain ⟨f, hf, hsegs⟩ := segments_of_fieldAt? ho h
    rw [hscope] at hsegs
    exact ⟨f, hf, Literal.segments_injective hsegs⟩
  · rintro ⟨f, hf, rfl⟩
    obtain ⟨path, -, hpath⟩ := exists_fieldAt? ho (hall id (Arena.lt_size_of_get? hf))
    obtain ⟨f', hf', hsegs⟩ := segments_of_fieldAt? ho hpath
    rw [hf, Option.some.injEq] at hf'
    subst hf'
    rw [hscope, List.nil_append] at hsegs
    rw [← hsegs] at hpath
    exact hpath

end

end WireSchema.Namespace
