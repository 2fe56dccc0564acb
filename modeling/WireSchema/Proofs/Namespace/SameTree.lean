import Mathlib.Data.List.Sort
import WireSchema.Proofs.Namespace.Gains
import WireSchema.Proofs.Namespace.Splitting

/-! # Namespaces that are the same

Two trees of namespaces are the same, up to the places of their fields in the arenas, if names lead
to namespaces with the same declarations in both of them (`Namespace.SameTree`). Then all paths lead
to the same declarations. Content that is the same in each namespace makes such trees
(`Population.Gains.sameTree`), and the same declarations are refused on the way
(`Population.Gains.repeats_perm`). -/

namespace WireSchema

open Markup

namespace Namespace

/-- The namespaces have the same declarations, wherever their fields stand in the two arenas. -/
structure SameAs (a a' : Arena) (n n' : Namespace) : Prop where
  name : n'.name = n.name
  externalRef : n'.externalRef = n.externalRef
  description : n'.description = n.description
  fields : n'.fields.map (fun x => (x.1, a'.get? x.2)) = n.fields.map fun x => (x.1, a.get? x.2)
  interfaces : n'.interfaces = n.interfaces
  messages : n'.messages = n.messages
  frames : n'.frames = n.frames
  namespaces : n'.namespaces.map Namespace.name = n.namespaces.map Namespace.name

/-- The same names lead to a namespace in both trees, and the namespaces have the same
declarations. -/
def SameTree (a a' : Arena) (ns ns' : Namespace) : Prop :=
  ∀ names, Option.Rel (SameAs a a') (ns.named? names) (ns'.named? names)

/-! ### Paths -/

section paths
variable {a a' : Arena} {ns ns' n : Namespace}

theorem scope?_append (ns : Namespace) (names : List String) (last : String) :
    ns.scope? (names ++ [last]) = (ns.named? names).map fun n => (n, last) := by
  induction names generalizing ns with
  | nil => rfl
  | cons first rest ih =>
    rw [List.cons_append, scope?_cons (by simp), named?]
    cases ns.child? first with
    | none => rfl
    | some c => exact ih c

theorem named?_append (ns : Namespace) (names names' : List String) :
    ns.named? (names ++ names') = (ns.named? names).bind fun n => n.named? names' := by
  induction names generalizing ns with
  | nil => rfl
  | cons first rest ih =>
    rw [List.cons_append, named?, named?]
    cases ns.child? first with
    | none => rfl
    | some c => exact ih c

theorem externalRef_of_named? (ho : ns.AllOrderly a) {names : List String}
    (h : ns.named? names = some n) : n.externalRef = names.foldl qualify ns.externalRef := by
  induction names generalizing ns with
  | nil =>
    cases h
    rfl
  | cons first rest ih =>
    obtain ⟨hns, hall⟩ := allOrderly_iff.mp ho
    obtain ⟨c, hc, hrest⟩ := Option.bind_eq_some_iff.mp h
    obtain ⟨hmem, rfl⟩ := (findNamed?_eq_some_iff hns.sorted_namespaces).mp hc
    rw [ih (hall c hmem) hrest, (hns.nested c hmem).2]
    rfl

theorem name_of_named? {names : List String} {last : String}
    (h : ns.named? (names ++ [last]) = some n) : n.name = last := by
  rw [named?_append, Option.bind_eq_some_iff] at h
  obtain ⟨c, -, h⟩ := h
  obtain ⟨d, hd, h⟩ := Option.bind_eq_some_iff.mp h
  cases h
  have hkey := List.find?_some hd
  exact beq_iff_eq.mp hkey

theorem findNamed?_map {α β : Type} {name : α → String} {name' : β → String} {g : α → β}
    (hname : ∀ x, name' (g x) = name x) (key : String) (xs : List α) :
    findNamed? name' key (xs.map g) = (findNamed? name key xs).map g := by
  unfold findNamed?
  rw [List.find?_map]
  simp only [Function.comp_def, hname]

/-- In the same trees, the names of a path lead to namespaces with the same declarations. -/
theorem SameTree.scope? (h : SameTree a a' ns ns') (path : List String) :
    Option.Rel (fun x x' => SameAs a a' x.1 x'.1 ∧ x'.2 = x.2) (ns.scope? path)
      (ns'.scope? path) := by
  rcases List.eq_nil_or_concat path with rfl | ⟨names, last, rfl⟩
  · exact .none
  · rw [List.concat_eq_append, scope?_append, scope?_append]
    generalize hn : ns.named? names = x
    generalize hn' : ns'.named? names = x'
    have hrel := h names
    rw [hn, hn'] at hrel
    cases hrel with
    | none => exact .none
    | some hsame => exact .some ⟨hsame, rfl⟩

/-- **In the same trees, a path leads to the same declaration**, if it does in namespaces with the
same declarations. -/
theorem SameTree.locate? {α : Type} (h : SameTree a a' ns ns')
    {find find' : Namespace → String → Option α}
    (hfind : ∀ n n' last, SameAs a a' n n' → find' n' last = find n last) (path : String) :
    ns'.locate? find' path = ns.locate? find path := by
  have hrel := h.scope? (Literal.segments path)
  unfold Namespace.locate?
  generalize ns.scope? (Literal.segments path) = x at hrel
  generalize ns'.scope? (Literal.segments path) = x' at hrel
  cases hrel with
  | none => rfl
  | @some x x' hsame =>
    obtain ⟨hn, hlast⟩ := hsame
    change find' x'.1 x'.2 = find x.1 x.2
    rw [hlast]
    exact hfind _ _ _ hn

theorem SameTree.findField? (h : SameTree a a' ns ns') (path : String) :
    (ns'.findField? path).bind a'.get? = (ns.findField? path).bind a.get? := by
  have hget (a : Arena) (n : Namespace) (last : String) : (n.ownField? last).bind a.get? =
      (findNamed? Prod.fst last (n.fields.map fun x => (x.1, a.get? x.2))).bind Prod.snd := by
    have hmap : findNamed? Prod.fst last (n.fields.map fun x => (x.1, a.get? x.2)) =
        (findNamed? Prod.fst last n.fields).map fun x => (x.1, a.get? x.2) :=
      findNamed?_map (fun _ => rfl) last n.fields
    rw [hmap, ownField?, Option.bind_map, Option.bind_map]
    rfl
  have hlocate (a : Arena) (ns : Namespace) : (ns.findField? path).bind a.get? =
      ns.locate? (fun n last => (n.ownField? last).bind a.get?) path :=
    Option.bind_assoc _ _ _
  rw [hlocate, hlocate]
  refine h.locate? (fun n n' last hsame => ?_) path
  rw [hget, hget, hsame.fields]

theorem SameTree.findInterface? (h : SameTree a a' ns ns') (path : String) :
    ns'.findInterface? path = ns.findInterface? path :=
  h.locate? (fun _ _ _ hsame => by rw [hsame.interfaces]) path

theorem SameTree.findMessage? (h : SameTree a a' ns ns') (path : String) :
    ns'.findMessage? path = ns.findMessage? path :=
  h.locate? (fun _ _ _ hsame => by rw [hsame.messages]) path

theorem SameTree.findFrame? (h : SameTree a a' ns ns') (path : String) :
    ns'.findFrame? path = ns.findFrame? path :=
  h.locate? (fun _ _ _ hsame => by rw [hsame.frames]) path

end paths

end Namespace

/-! ### Populations with the same entries -/

namespace Population

variable {setting : Setting} {p q q' : Population}

/-- In each namespace there are the same entries, and the same is said of it. -/
structure SameEntries (p q : Population) : Prop where
  name : q.scope.name = p.scope.name
  externalRef : q.scope.externalRef = p.scope.externalRef
  entries : ∀ names kind, q.entries names kind = p.entries names kind
  description : ∀ names, q.description? names = p.description? names

/-- A namespace is known by its entries. -/
theorem lists_of_entries {a a' : Arena} {n n' : Namespace}
    (h : ∀ kind, n'.entries a' kind = n.entries a kind) :
    n'.fields.map (fun x => (x.1, a'.get? x.2)) = n.fields.map (fun x => (x.1, a.get? x.2)) ∧
      n'.interfaces = n.interfaces ∧ n'.messages = n.messages ∧ n'.frames = n.frames := by
  have hfields (a : Arena) (n : Namespace) : n.entries a .field =
      (n.fields.map fun x => (x.1, a.get? x.2)).map
        (Prod.map id (Option.map Declaration.field)) := by
    rw [List.map_map]
    rfl
  have hfield : Function.Injective (Option.map Declaration.field) :=
    Option.map_injective fun _ _ h => Declaration.field.inj h
  refine ⟨?_, ?_, ?_, ?_⟩
  · have hmap := h .field
    rw [hfields, hfields] at hmap
    exact List.map_injective_iff.mpr (Function.injective_id.prodMap hfield) hmap
  · refine List.map_injective_iff.mpr (fun i j hij => ?_) (h .interface)
    exact Declaration.interface.inj (Option.some.inj (Prod.ext_iff.mp hij).2)
  · refine List.map_injective_iff.mpr (fun i j hij => ?_) (h .message)
    exact Declaration.message.inj (Option.some.inj (Prod.ext_iff.mp hij).2)
  · refine List.map_injective_iff.mpr (fun i j hij => ?_) (h .frame)
    exact Declaration.frame.inj (Option.some.inj (Prod.ext_iff.mp hij).2)

theorem mem_names_iff {ns : Namespace} {name : String} :
    name ∈ ns.namespaces.map Namespace.name ↔ (ns.named? [name]).isSome = true := by
  have hat : ns.named? [name] = ns.child? name := by
    rw [Namespace.named?]
    cases ns.child? name <;> rfl
  rw [hat, Namespace.child?, findNamed?, List.find?_isSome, List.mem_map]
  simp only [beq_iff_eq]

namespace SameEntries

variable (h : SameEntries p q)
include h

/-- Names lead to a namespace in both populations, or in none. -/
theorem isSome_named? (names : List String) :
    (q.scope.named? names).isSome = (p.scope.named? names).isSome := by
  have hdescription := congrArg Option.isSome (h.description names)
  rw [description?, description?, Option.isSome_map, Option.isSome_map] at hdescription
  exact hdescription

theorem sameAs (hp : p.Arranged) (hq : q.Arranged) {names : List String} {n n' : Namespace}
    (hn : p.scope.named? names = some n) (hn' : q.scope.named? names = some n') :
    Namespace.SameAs p.catalogue.arena q.catalogue.arena n n' := by
  have hsorted {ns : Namespace} {a : Arena} (ho : ns.AllOrderly a) {m : Namespace}
      (hm : ns.named? names = some m) : (m.namespaces.map Namespace.name).Pairwise (· < ·) :=
    List.pairwise_map.mpr (ho m (Namespace.within_of_named? hm)).sorted_namespaces
  have hentries (kind : DeclarationKind) :
      n'.entries q.catalogue.arena kind = n.entries p.catalogue.arena kind := by
    have hkind := h.entries names kind
    rw [Population.entries, Population.entries, hn, hn'] at hkind
    exact hkind
  obtain ⟨hfields, hinterfaces, hmessages, hframes⟩ := lists_of_entries hentries
  refine ⟨?_, ?_, ?_, hfields, hinterfaces, hmessages, hframes, ?_⟩
  · rcases List.eq_nil_or_concat names with rfl | ⟨names, last, rfl⟩
    · cases hn
      cases hn'
      exact h.name
    · rw [List.concat_eq_append] at hn hn'
      rw [Namespace.name_of_named? hn, Namespace.name_of_named? hn']
  · rw [Namespace.externalRef_of_named? hp.orderly hn,
      Namespace.externalRef_of_named? hq.orderly hn', h.externalRef]
  · have hdescription := h.description names
    rw [description?, description?, hn, hn'] at hdescription
    exact Option.some.inj hdescription
  · -- both lists are in order and have the same names
    refine (hsorted hq.orderly hn').eq_of_mem_iff (hsorted hp.orderly hn) fun name => ?_
    have hnested := h.isSome_named? (names ++ [name])
    rw [Namespace.named?_append, Namespace.named?_append, hn, hn', Option.bind_some,
      Option.bind_some] at hnested
    rw [mem_names_iff, mem_names_iff, hnested]

/-- **Populations with the same entries are the same tree.** -/
theorem sameTree (hp : p.Arranged) (hq : q.Arranged) :
    Namespace.SameTree p.catalogue.arena q.catalogue.arena p.scope q.scope := by
  intro names
  have hboth := h.isSome_named? names
  cases hn : p.scope.named? names with
  | none =>
    rw [hn] at hboth
    rw [Option.isNone_iff_eq_none.mp (Option.isSome_eq_false_iff.mp hboth)]
    exact .none
  | some n =>
    rw [hn] at hboth
    obtain ⟨n', hn'⟩ := Option.isSome_iff_exists.mp hboth
    rw [hn']
    exact .some (h.sameAs hp hq hn hn')

end SameEntries

end Population

/-! ### The same content -/

namespace Turn

/-- Where a turn is, and whose turn it is. -/
def slot (t : Turn) : List String × DeclarationKind × Element := (t.path, t.kind, t.element)

/-- The declarations that are refused because their name is taken, with their places. -/
def repeats (ts : List Turn) : List (List String × DeclarationKind × Element) :=
  (ts.filter isRepeat).map slot

/-- In one place, the declarations that are refused are those of the turns there. -/
theorem count_repeats [DecidableEq Element] (names : List String) (kind : DeclarationKind)
    (e : Element) (ts : List Turn) :
    (repeats ts).count (names, kind, e) = (repeatsAt names kind ts).count e := by
  unfold repeats repeatsAt
  rw [List.count, List.count, List.countP_map, List.countP_map, List.countP_filter,
    List.countP_filter]
  refine List.countP_congr fun t _ => ?_
  simp only [Function.comp_apply, slot, isAt, Bool.and_eq_true, beq_iff_eq, Prod.mk.injEq]
  tauto

end Turn

namespace Population.Gains

variable {setting : Setting} {p q q' : Population} {es es' : List Element} {ts ts' : List Turn}

theorem sameEntries (h : Gains setting p (.ofChildren es) ts q)
    (h' : Gains setting p (.ofChildren es') ts' q') (hp : p.Arranged)
    (hsame : SameContent es es') : SameEntries q q' := by
  refine ⟨?_, ?_, fun names kind => ?_, fun names => ?_⟩
  · rw [h'.grows.name, h.grows.name]
  · rw [h'.grows.externalRef, h.grows.externalRef]
  · rw [h'.entries hp, h.entries hp]
    exact congrArg (List.foldl _ _) (hsame.declarations names kind)
  · rw [h'.description hp, h.description hp]
    exact hsame.openings names _

/-- **The same content makes the same tree.** -/
theorem sameTree (h : Gains setting p (.ofChildren es) ts q)
    (h' : Gains setting p (.ofChildren es') ts' q') (hp : p.Arranged)
    (hsame : SameContent es es') :
    Namespace.SameTree q.catalogue.arena q'.catalogue.arena q.scope q'.scope :=
  (h.sameEntries h' hp hsame).sameTree (hp.extend h.grows h.tidy) (hp.extend h'.grows h'.tidy)

/-- **With the same content the same declarations are refused**, though perhaps in another order. -/
theorem repeats_perm (h : Gains setting p (.ofChildren es) ts q)
    (h' : Gains setting p (.ofChildren es') ts' q') (hp : p.Arranged)
    (hsame : SameContent es es') : (Turn.repeats ts').Perm (Turn.repeats ts) := by
  classical
  refine List.perm_iff_count.mpr fun ⟨names, kind, e⟩ => ?_
  rw [Turn.count_repeats, Turn.count_repeats, h'.repeated hp, h.repeated hp]
  exact congrArg (fun es => (WireSchema.repeated _ _ es).count e) (hsame.declarations names kind)

end Population.Gains

end WireSchema
