import WireSchema.Proofs.Namespace.Lookup

/-! # Finding declarations by their paths

In a namespace whose namespaces are orderly, the names of a path lead to one namespace and a last
name, which are those that the path is made of (`scope?_eq_some_iff`). Hence a declaration that has
a name is found under its path, and under no other one (`locate?_eq_some_iff`). -/

namespace WireSchema.Namespace

open Relation

variable {a : Arena} {ns n n' : Namespace} {path : List String} {last : String}

/-! ### Scopes -/

/-- What a path leads to lies within. -/
theorem within_of_scope? (h : ns.scope? path = some (n, last)) : n.Within ns := by
  induction path generalizing ns with
  | nil => simp [scope?] at h
  | cons first rest ih =>
    cases rest with
    | nil =>
      rw [scope?, Option.some.injEq, Prod.mk.injEq] at h
      rw [h.1]
      exact ReflTransGen.refl
    | cons second rest =>
      rw [scope?_cons (List.cons_ne_nil _ _), Option.bind_eq_some_iff] at h
      obtain ⟨c, hc, h⟩ := h
      exact ReflTransGen.head (List.mem_of_find?_eq_some hc) (ih h)

/-- Every name in a namespace within is led to. -/
theorem exists_scope? (ho : ns.AllOrderly a) (h : n.Within ns) (last : String) :
    ∃ path, path ≠ [] ∧ ns.scope? path = some (n, last) := by
  induction ns using nested_induction with
  | step ns ih =>
    obtain ⟨hns, hall⟩ := allOrderly_iff.mp ho
    rcases ReflTransGen.cases_head h with rfl | ⟨c, hc, h⟩
    · exact ⟨[last], List.cons_ne_nil _ _, rfl⟩
    · obtain ⟨path, hne, hpath⟩ := ih c hc (hall c hc) h
      refine ⟨c.name :: path, List.cons_ne_nil _ _, ?_⟩
      rw [scope?_cons hne, child?, (findNamed?_eq_some_iff hns.sorted_namespaces).mpr ⟨hc, rfl⟩]
      exact hpath

/-- **The names of a path lead to the namespace and the name that it is made of.** -/
theorem scope?_eq_some_iff (ho : ns.AllOrderly a) :
    ns.scope? path = some (n, last) ↔ n.Within ns ∧
      Literal.scopeSegments n.externalRef ++ [last] =
        Literal.scopeSegments ns.externalRef ++ path := by
  constructor
  · intro h
    exact ⟨within_of_scope? h, (scopeSegments_of_scope? ho h).2⟩
  · rintro ⟨hn, hsegs⟩
    obtain ⟨path', -, hpath'⟩ := exists_scope? ho hn last
    have hsegs' := (scopeSegments_of_scope? ho hpath').2
    rw [hsegs, List.append_cancel_left_eq] at hsegs'
    rw [hsegs']
    exact hpath'

/-- A namespace within is known by its path. -/
theorem eq_of_scopeSegments_eq (ho : ns.AllOrderly a) (hn : n.Within ns) (hn' : n'.Within ns)
    (h : Literal.scopeSegments n.externalRef = Literal.scopeSegments n'.externalRef) : n = n' := by
  obtain ⟨path, -, hpath⟩ := exists_scope? ho hn ""
  have hsegs := (scopeSegments_of_scope? ho hpath).2
  rw [h] at hsegs
  rw [(scope?_eq_some_iff ho).mpr ⟨hn', hsegs⟩, Option.some.injEq, Prod.mk.injEq] at hpath
  exact hpath.1.symm

/-! ### Declarations -/

/-- The items are in order, and each that has a name has the path that its name has in the
namespace. -/
structure Filed {α : Type} (name path : α → String) (scope : String) (xs : List α) : Prop where
  sorted : SortedBy name xs
  titled : ∀ x ∈ xs, name x ≠ "" →
    Literal.isName (name x) = true ∧ path x = qualify scope (name x)

section
variable {α : Type} {name path : α → String} {scope : String} {xs : List α} {x : α}

theorem Filed.segments (h : Filed name path scope xs) (hx : x ∈ xs) (hne : name x ≠ "") :
    Literal.segments (path x) = Literal.scopeSegments scope ++ [name x] := by
  obtain ⟨hname, hpath⟩ := h.titled x hx hne
  rw [hpath, Literal.segments_qualify hname]

theorem Filed.insertNamed {ys : List α} (h : Filed name path scope xs)
    (htitle : name x ≠ "" → Literal.isName (name x) = true ∧ path x = qualify scope (name x))
    (hinsert : WireSchema.insertNamed name x xs = some ys) : Filed name path scope ys := by
  refine ⟨sortedBy_insertNamed h.sorted hinsert, fun y hy => ?_⟩
  rcases (mem_of_insertNamed hinsert y).mp hy with rfl | hy
  · exact htitle
  · exact h.titled y hy

/-- A change of the items keeps what only their names and paths say. -/
theorem Filed.map {g : α → α} (h : Filed name path scope xs) (hname : ∀ x, name (g x) = name x)
    (hpath : ∀ x, path (g x) = path x) : Filed name path scope (xs.map g) := by
  refine ⟨List.pairwise_map.mpr ?_, fun y hy => ?_⟩
  · simp only [hname]
    exact h.sorted
  · obtain ⟨x, hx, rfl⟩ := List.mem_map.mp hy
    rw [hname, hpath]
    exact h.titled x hx

/-- **A declaration with a name is found under its path, and under no other one.** -/
theorem locate?_eq_some_iff {items : Namespace → List α} (ho : ns.AllOrderly a)
    (hroot : ns.externalRef = "")
    (hfiled : ∀ n, n.Within ns → Filed name path n.externalRef (items n)) (hn : n.Within ns)
    (hx : x ∈ items n) (hne : name x ≠ "") (p : String) :
    ns.locate? (fun n key => findNamed? name key (items n)) p = some x ↔ p = path x := by
  have hscope : Literal.scopeSegments ns.externalRef = [] := by
    rw [hroot]
    rfl
  have hsegs := (hfiled n hn).segments hx hne
  unfold locate?
  rw [Option.bind_eq_some_iff]
  constructor
  · rintro ⟨⟨n', last⟩, hat, hfind⟩
    obtain ⟨hn', hpath⟩ := (scope?_eq_some_iff ho).mp hat
    obtain ⟨hx', rfl⟩ := (findNamed?_eq_some_iff (hfiled n' hn').sorted).mp hfind
    have hsegs' := (hfiled n' hn').segments hx' hne
    rw [hscope, List.nil_append] at hpath
    exact Literal.segments_injective (hpath.symm.trans hsegs'.symm)
  · rintro rfl
    refine ⟨(n, name x), (scope?_eq_some_iff ho).mpr ⟨hn, ?_⟩,
      (findNamed?_eq_some_iff (hfiled n hn).sorted).mpr ⟨hx, rfl⟩⟩
    rw [hscope, List.nil_append, hsegs]

end

/-! ### Places of the arena -/

/-- The places that are listed are those of the fields of the namespaces within. -/
theorem mem_allFields_iff {id : FieldId} :
    id ∈ ns.allFields ↔ ∃ n : Namespace, n.Within ns ∧ id ∈ n.fields.map (·.2) :=
  mem_flattened_iff allFields_eq

/-- **No two namespaces list one place.** -/
theorem eq_of_mem_fields (ho : ns.AllOrderly a) (hn : n.Within ns) (hn' : n'.Within ns)
    {id : FieldId} (h : id ∈ n.fields.map (·.2)) (h' : id ∈ n'.fields.map (·.2)) : n = n' := by
  obtain ⟨p, hp, rfl⟩ := List.mem_map.mp h
  obtain ⟨p', hp', hid⟩ := List.mem_map.mp h'
  obtain ⟨hname, f, hf, href⟩ := (ho n hn).field p hp
  obtain ⟨hname', f', hf', href'⟩ := (ho n' hn').field p' hp'
  rw [hid, hf, Option.some.injEq] at hf'
  subst hf'
  have hsegs := congrArg Literal.segments (href.symm.trans href')
  rw [Literal.segments_qualify hname, Literal.segments_qualify hname'] at hsegs
  exact eq_of_scopeSegments_eq ho hn hn' (List.append_inj_left' hsegs rfl)

/-! ### All interfaces -/

theorem allInterfacesIn_eq_flatMap (ns : List Namespace) :
    allInterfacesIn ns = ns.flatMap allInterfaces := by
  induction ns with
  | nil => simp [allInterfacesIn]
  | cons n ns ih => simp [allInterfacesIn, ih]

theorem allInterfaces_eq (ns : Namespace) :
    ns.allInterfaces = ns.interfaces ++ ns.namespaces.flatMap allInterfaces := by
  obtain ⟨name, externalRef, description, fields, interfaces, messages, frames, namespaces⟩ := ns
  rw [allInterfaces, allInterfacesIn_eq_flatMap]

theorem mem_allInterfaces_iff {i : Interface} :
    i ∈ ns.allInterfaces ↔ ∃ n : Namespace, n.Within ns ∧ i ∈ n.interfaces :=
  mem_flattened_iff allInterfaces_eq

end WireSchema.Namespace
