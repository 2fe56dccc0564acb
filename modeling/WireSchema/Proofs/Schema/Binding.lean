import WireSchema.Proofs.Schema.Built
import WireSchema.Proofs.Schema.Linking

/-! # References and the fields they lead to

The references of a schema are those that its fields hold at any depth and those of its layers
(`mem_refs_iff`). Linking keeps what each of them says and the paths of all fields
(`sites_refs_link`, `externalRef_link`), so that a reference of a linked schema is bound to nothing
but the field that has its path (`eq_target_iff`), and one that names no field is reported once
(`unresolved_link`). -/

namespace WireSchema

/-- The finding is the error about a reference that names no field. -/
def Finding.reportsUnresolved (f : Finding) : Bool :=
  match f.cause with
  | .error (.unresolvedReference _) => true
  | _ => false

theorem Finding.reportsUnresolved_iff {f : Finding} :
    f.reportsUnresolved = true ↔ ∃ path, f.cause = .error (.unresolvedReference path) := by
  unfold Finding.reportsUnresolved
  split <;> simp_all

/-- What a reference says, whether it is bound or not: its path and its line. -/
def FieldRef.site (r : FieldRef) : String × Nat := (r.path, r.line)

/-- Some field has the path. -/
def Arena.hasPath (a : Arena) (path : String) : Bool := a.fields.any (·.externalRef == path)

theorem Arena.hasPath_iff {a : Arena} {path : String} :
    a.hasPath path = true ↔ ∃ i f, a.get? i = some f ∧ f.externalRef = path := by
  unfold hasPath get?
  rw [Array.any_eq_true']
  constructor
  · rintro ⟨f, hf, hpath⟩
    obtain ⟨i, hi⟩ := Array.mem_iff_getElem?.mp hf
    exact ⟨i, f, hi, beq_iff_eq.mp hpath⟩
  · rintro ⟨i, f, hi, hpath⟩
    exact ⟨f, Array.mem_iff_getElem?.mpr ⟨i, hi⟩, beq_iff_eq.mpr hpath⟩

namespace Schema

variable {s : Schema} {r : FieldRef} {id : FieldId}

/-! ### The references of a schema -/

/-- The field is one of the arena, or of a message, an interface or a layer. -/
def HasField (s : Schema) (f : Field) : Prop :=
  (∃ i, s.arena.get? i = some f) ∨ ∃ n : Namespace, n.Within s.root ∧ n.HasField f

/-- The field is one of these, or declared inside of one at any depth. -/
def Contains (s : Schema) (f : Field) : Prop := ∃ g, s.HasField g ∧ f.Within g

/-- The reference stands in a field at any depth, or for the field of a layer. -/
def HasRef (s : Schema) (r : FieldRef) : Prop :=
  (∃ f : Field, s.HasField f ∧ f.Holds r) ∨ ∃ n : Namespace, n.Within s.root ∧ n.HasLayerRef r

theorem mem_refs : r ∈ s.refs ↔ (∃ i, r ∈ s.arena.refsAt i) ∨ r ∈ s.root.refs := by
  rw [refs, List.mem_append, Arena.mem_flatMap_fields]
  refine or_congr_left (exists_congr fun i => ?_)
  unfold Arena.refsAt
  cases s.arena.get? i <;> simp

/-- **The list holds the references of all fields at any depth and of all layers**, and no
others. -/
theorem mem_refs_iff : r ∈ s.refs ↔ s.HasRef r := by
  rw [refs, List.mem_append, Arena.mem_flatMap_fields, Namespace.mem_refs_iff]
  simp only [Field.mem_refs_iff_holds]
  constructor
  · rintro (⟨i, f, hf, hr⟩ | ⟨n, hn, ⟨f, hf, hr⟩ | hr⟩)
    · exact Or.inl ⟨f, Or.inl ⟨i, hf⟩, hr⟩
    · exact Or.inl ⟨f, Or.inr ⟨n, hn, hf⟩, hr⟩
    · exact Or.inr ⟨n, hn, hr⟩
  · rintro (⟨f, ⟨i, hf⟩ | ⟨n, hn, hf⟩, hr⟩ | ⟨n, hn, hr⟩)
    · exact Or.inl ⟨i, f, hf, hr⟩
    · exact Or.inr ⟨n, hn, Or.inl ⟨f, hf, hr⟩⟩
    · exact Or.inr ⟨n, hn, Or.inr hr⟩

/-! ### What linking keeps -/

theorem get?_bindRefs (s : Schema) (i : FieldId) :
    s.bindRefs.1.arena.get? i = (s.arena.get? i).map (Field.mapRefs (bind s.root)) :=
  Array.getElem?_map

theorem refs_bindRefs (s : Schema) : s.bindRefs.1.refs = s.refs.map (bind s.root) := by
  have hfields : s.bindRefs.1.arena.fields.toList.flatMap Field.refs =
      (s.arena.fields.toList.flatMap Field.refs).map (bind s.root) := by
    show (s.arena.fields.map (Field.mapRefs (bind s.root))).toList.flatMap Field.refs = _
    rw [Array.toList_map, List.flatMap_map, List.map_flatMap]
    simp only [Field.refs_mapRefs]
  rw [refs, refs, List.map_append, hfields]
  exact congrArg _ (Namespace.refs_mapRefs _ _)

/-- What neither binding references nor completing fields changes, linking does not change. -/
theorem map_get?_link {α : Type} {look : Field → α} (s : Schema)
    (hbind : ∀ f, look (f.mapRefs (bind s.root)) = look f)
    (hcut : ∀ j f, look (f.mapRefs (Arena.unbind j)) = look f)
    (hcomplete : ∀ a f, look (f.complete a).1 = look f) (i : FieldId) :
    (s.link.1.arena.get? i).map look = (s.arena.get? i).map look := by
  rw [arena_link, Arena.map_get?_complete hcomplete, Arena.breakCycles,
    Arena.map_get?_cutEdges hcut, get?_bindRefs, Option.map_map]
  exact congrArg (fun g => (s.arena.get? i).map g) (funext hbind)

theorem externalRef_link (s : Schema) (i : FieldId) :
    (s.link.1.arena.get? i).map Field.externalRef = (s.arena.get? i).map Field.externalRef := by
  refine s.map_get?_link (fun f => ?_) (fun j f => ?_) Field.externalRef_complete i
  · rw [Field.externalRef, Field.core_mapRefs]
    rfl
  · rw [Field.externalRef, Field.core_mapRefs]
    rfl

theorem site_bind (root : Namespace) (r : FieldRef) : (bind root r).site = r.site := rfl

theorem site_unbind (j : FieldId) (r : FieldRef) : (Arena.unbind j r).site = r.site := by
  unfold Arena.unbind
  split_ifs <;> rfl

/-- **Linking keeps what the references say.** -/
theorem sites_refs_link (s : Schema) :
    s.link.1.refs.map FieldRef.site = s.refs.map FieldRef.site := by
  have hmap {g : FieldRef → FieldRef} (hg : ∀ r, (g r).site = r.site) (f : Field) :
      (f.mapRefs g).refs.map FieldRef.site = f.refs.map FieldRef.site := by
    rw [Field.refs_mapRefs, List.map_map]
    exact congrArg (fun h => f.refs.map h) (funext hg)
  have harena : s.link.1.arena.fields.toList.flatMap (fun f => f.refs.map FieldRef.site) =
      s.arena.fields.toList.flatMap fun f => f.refs.map FieldRef.site :=
    Arena.flatMap_fields_congr (s.map_get?_link (hmap (site_bind s.root))
      (fun j => hmap (site_unbind j)) fun a f => by rw [Field.refs_complete])
  have hroot : s.link.1.root.refs.map FieldRef.site = s.root.refs.map FieldRef.site := by
    rw [refs_root_link]
    show (s.root.mapRefs (bind s.root)).refs.map FieldRef.site = _
    rw [Namespace.refs_mapRefs, List.map_map]
    rfl
  rw [refs, refs, List.map_append, List.map_append, List.map_flatMap, List.map_flatMap, harena,
    hroot]

/-! ### Bound references -/

theorem target_of_mem_refs_bindRefs (h : r ∈ s.bindRefs.1.refs) :
    r.target = s.root.findField? r.path := by
  rw [refs_bindRefs, List.mem_map] at h
  obtain ⟨r, -, rfl⟩ := h
  rfl

/-- **A reference of a linked schema is bound only to what its path leads to.** -/
theorem findField?_of_mem_refs_link (h : r ∈ s.link.1.refs) (ht : r.target = some id) :
    s.root.findField? r.path = some id := by
  rcases mem_refs.mp h with ⟨i, h⟩ | h
  · obtain ⟨change, hmap, hchange⟩ := s.bindRefs.1.arena.refsAt_breakCycles i
    rw [refsAt_arena_link, hmap, List.mem_map] at h
    obtain ⟨r, hr, rfl⟩ := h
    rcases hchange r with hsame | ⟨j, -, hcut, -⟩
    · rw [hsame] at ht ⊢
      rw [← target_of_mem_refs_bindRefs (mem_refs.mpr (Or.inl ⟨i, hr⟩)), ht]
    · rw [hcut] at ht
      simp at ht
  · rw [refs_root_link] at h
    rw [← target_of_mem_refs_bindRefs (mem_refs.mpr (Or.inr h)), ht]

theorem findField?_link (h : s.Indexed) {path : String} :
    s.root.findField? path = some id ↔
      ∃ f, s.link.1.arena.get? id = some f ∧ f.externalRef = path := by
  rw [h.findField?_eq_some_iff, ← Option.map_eq_some_iff, ← Option.map_eq_some_iff,
    externalRef_link]

/-- **A reference of a linked schema is bound only to the field that has its path**, and no other
field has that path. -/
theorem eq_target_iff (hs : s.Indexed) (h : r ∈ s.link.1.refs) (ht : r.target = some id)
    (i : FieldId) :
    i = id ↔ ∃ f, s.link.1.arena.get? i = some f ∧ f.externalRef = r.path := by
  rw [← findField?_link hs, findField?_of_mem_refs_link h ht, Option.some.injEq]
  exact eq_comm

/-! ### References that name no field -/

/-- The error about a reference that says this, unless a field is known to have the path. -/
def unresolvedAt (known : String → Bool) (site : String × Nat) : Option Finding :=
  if known site.1 then none else some ⟨site.2, .error (.unresolvedReference site.1)⟩

theorem unresolved?_eq (hs : s.Indexed) (r : FieldRef) :
    unresolved? s.root r = unresolvedAt s.link.1.arena.hasPath r.site := by
  unfold unresolved? unresolvedAt FieldRef.site
  cases h : s.root.findField? r.path with
  | none =>
    have hnot : ¬ s.link.1.arena.hasPath r.path = true := by
      rw [Arena.hasPath_iff]
      rintro ⟨i, f, hf⟩
      rw [(findField?_link hs).mpr ⟨f, hf⟩] at h
      simp at h
    rw [if_neg hnot]
  | some id =>
    obtain ⟨f, hf⟩ := (findField?_link hs).mp h
    rw [if_pos (Arena.hasPath_iff.mpr ⟨id, f, hf⟩)]

theorem filter_reportsUnresolved_link (s : Schema) :
    s.link.2.filter Finding.reportsUnresolved = s.bindRefs.2 := by
  obtain ⟨rest, hlink, hrest⟩ := s.link_findings
  have hbound : s.bindRefs.2.filter Finding.reportsUnresolved = s.bindRefs.2 :=
    List.filter_eq_self.mpr fun x hx => Finding.reportsUnresolved_iff.mpr (cause_of_mem_bindRefs hx)
  have hcut : s.bindRefs.1.arena.breakCycles.2.filter Finding.reportsUnresolved = [] := by
    rw [List.filter_eq_nil_iff]
    intro x hx hu
    obtain ⟨name, hc⟩ := Finding.reportsCycle_iff.mp (Arena.reportsCycle_of_mem_cutEdges hx)
    obtain ⟨path, hu⟩ := Finding.reportsUnresolved_iff.mp hu
    simp [hc] at hu
  have hrest : rest.filter Finding.reportsUnresolved = [] := by
    rw [List.filter_eq_nil_iff]
    intro x hx hu
    obtain ⟨path, hu⟩ := Finding.reportsUnresolved_iff.mp hu
    rcases hrest x hx with h | ⟨name, spec, h⟩
    · simp [Finding.isError, hu] at h
    · simp [h] at hu
  rw [hlink, List.filter_append, List.filter_append, hbound, hcut, hrest, List.append_nil,
    List.append_nil]

/-- **Each reference that names no field is reported once**, in the order of the references. -/
theorem unresolved_link (hs : s.Indexed) :
    s.link.2.filter Finding.reportsUnresolved =
      (s.link.1.refs.filter fun r => !s.link.1.arena.hasPath r.path).map fun r =>
        ⟨r.line, .error (.unresolvedReference r.path)⟩ := by
  rw [filter_reportsUnresolved_link]
  calc s.bindRefs.2 = s.refs.filterMap (unresolved? s.root) := rfl
    _ = s.refs.filterMap fun r => unresolvedAt s.link.1.arena.hasPath r.site :=
        List.filterMap_congr fun r _ => unresolved?_eq hs r
    _ = (s.refs.map FieldRef.site).filterMap (unresolvedAt s.link.1.arena.hasPath) := by
        rw [List.filterMap_map]
        rfl
    _ = s.link.1.refs.filterMap fun r => unresolvedAt s.link.1.arena.hasPath r.site := by
        rw [← sites_refs_link, List.filterMap_map]
        rfl
    _ = _ := by
        rw [← List.filterMap_eq_map, List.filterMap_filter]
        refine List.filterMap_congr fun r _ => ?_
        unfold unresolvedAt FieldRef.site
        cases s.link.1.arena.hasPath r.path <;> rfl

/-! ### Links without errors -/

/-- **If linking finds no error, every reference is bound.** -/
theorem exists_target_of_link (hs : s.Indexed) (hclean : ∀ x ∈ s.link.2, x.isError = false)
    (h : r ∈ s.link.1.refs) :
    ∃ id f, r.target = some id ∧ s.link.1.arena.get? id = some f ∧ f.externalRef = r.path := by
  have hpath : s.link.1.arena.hasPath r.path = true := by
    by_contra hnot
    have hmem : (⟨r.line, .error (.unresolvedReference r.path)⟩ : Finding) ∈
        s.link.2.filter Finding.reportsUnresolved := by
      rw [unresolved_link hs]
      exact List.mem_map.mpr ⟨r, List.mem_filter.mpr ⟨h, by simpa using hnot⟩, rfl⟩
    have := hclean _ (List.mem_filter.mp hmem).1
    simp [Finding.isError] at this
  -- no cycle was reported, so that every reference is as it was bound
  have hacyclic : s.bindRefs.1.arena.Acyclic := by
    by_contra hcycle
    obtain ⟨x, hx, hc⟩ := exists_reportsCycle_link.mpr
      (Arena.exists_reportsCycle_breakCycles.mpr hcycle)
    obtain ⟨name, hc⟩ := Finding.reportsCycle_iff.mp hc
    have := hclean x hx
    simp [Finding.isError, hc] at this
  rw [refs_link_of_acyclic hacyclic] at h
  obtain ⟨id, f, hf, hp⟩ := Arena.hasPath_iff.mp hpath
  refine ⟨id, f, ?_, hf, hp⟩
  rw [target_of_mem_refs_bindRefs h]
  exact (findField?_link hs).mpr ⟨f, hf, hp⟩

end Schema

end WireSchema
