import WireSchema.Proofs.Namespace.Parts
import WireSchema.Proofs.Namespace.Tidiness
import WireSchema.Proofs.Schema.Binding
import WireSchema.Proofs.Text.Halving

/-! # Schemas in their order

The lists of a schema that documents build are in order, and so are those of the schema that linking
makes of it (`Arranged.link`): linking changes what interfaces, messages and frames have in them,
but not their names and paths, and a default interface comes before all that have names. -/

namespace WireSchema

open Markup Relation

theorem Arena.size_eq_of_map_get? {α : Type} {look : Field → α} {a b : Arena}
    (h : ∀ i, (a.get? i).map look = (b.get? i).map look) : a.size = b.size := by
  have hle (i : Nat) : a.size ≤ i ↔ b.size ≤ i := by
    rw [← get?_eq_none_iff, ← get?_eq_none_iff, ← Option.map_eq_none_iff (f := look), h,
      Option.map_eq_none_iff]
  exact le_antisymm ((hle _).mpr le_rfl) ((hle _).mp le_rfl)

namespace Namespace

variable {a b : Arena} {g : PartMap} {ns : Namespace}

/-! ### What linking does to namespaces -/

theorem Tidy.mapParts (hg : g.KeepsPaths) (h : ns.Tidy) : (ns.mapParts g).Tidy := by
  refine ⟨?_, ?_, ?_, ?_, ?_⟩
  · rw [interfaces_mapParts, externalRef_mapParts]
    exact h.interfaces.map (fun i => (hg.interface i).1) fun i => (hg.interface i).2
  · rw [messages_mapParts, externalRef_mapParts]
    exact h.messages.map (fun m => (hg.message m).1) fun m => (hg.message m).2
  · rw [frames_mapParts, externalRef_mapParts]
    exact h.frames.map (fun f => (hg.frame f).1) fun f => (hg.frame f).2
  · rw [messages_mapParts]
    intro m' hm'
    obtain ⟨m, hm, rfl⟩ := List.mem_map.mp hm'
    rw [(hg.message m).1]
    exact h.message m hm
  · rw [frames_mapParts]
    intro f' hf'
    obtain ⟨f, hf, rfl⟩ := List.mem_map.mp hf'
    rw [(hg.frame f).1]
    exact h.frame f hf

/-- A namespace is as orderly in another arena whose fields have the same paths. -/
theorem Orderly.mapParts (hab : ∀ i, (b.get? i).map Field.externalRef =
    (a.get? i).map Field.externalRef) (h : ns.Orderly a) : (ns.mapParts g).Orderly b := by
  refine ⟨?_, ?_, ?_, ?_⟩
  · rw [fields_mapParts]
    exact h.sorted_fields
  · rw [fields_mapParts, externalRef_mapParts]
    intro p hp
    obtain ⟨hname, hpath⟩ := h.field p hp
    refine ⟨hname, ?_⟩
    rw [← Option.map_eq_some_iff] at hpath ⊢
    rw [hab]
    exact hpath
  · rw [namespaces_mapParts]
    refine List.pairwise_map.mpr ?_
    simp only [name_mapParts]
    exact h.sorted_namespaces
  · rw [namespaces_mapParts, externalRef_mapParts]
    intro n' hn'
    obtain ⟨n, hn, rfl⟩ := List.mem_map.mp hn'
    rw [name_mapParts, externalRef_mapParts]
    exact h.nested n hn

theorem AllOrderly.mapParts (hab : ∀ i, (b.get? i).map Field.externalRef =
    (a.get? i).map Field.externalRef) (h : ns.AllOrderly a) : (ns.mapParts g).AllOrderly b := by
  intro n hn
  obtain ⟨m, hm, rfl⟩ := within_mapParts_iff.mp hn
  exact (h m hm).mapParts hab

theorem allFields_mapParts (g : PartMap) (ns : Namespace) :
    (ns.mapParts g).allFields = ns.allFields := by
  induction ns using nested_induction with
  | step ns ih =>
    rw [allFields_eq, allFields_eq, fields_mapParts, namespaces_mapParts, List.flatMap_map,
      List.flatMap_congr ih]

/-! ### The default interface -/

theorem empty_lt {s : String} (h : s ≠ "") : "" < s := by
  rw [String.lt_iff_toList_lt]
  cases hs : s.toList with
  | nil => exact absurd (String.toList_inj.mp hs) h
  | cons c cs => exact List.nil_lt_cons c cs

/-- **A default interface comes before the interfaces that have names.** -/
theorem Tidy.addDefaultInterface (h : ns.Tidy) : ns.addDefaultInterface.Tidy := by
  unfold Namespace.addDefaultInterface
  split_ifs with hdefault
  · exact h
  · refine ⟨⟨List.pairwise_cons.mpr ⟨fun i hi => ?_, h.interfaces.sorted⟩, fun i hi => ?_⟩,
      h.messages, h.frames, h.message, h.frame⟩
    · refine empty_lt fun hname => hdefault ?_
      exact List.any_eq_true.mpr ⟨i, hi, by rw [Interface.isDefault, hname]; rfl⟩
    · rcases List.mem_cons.mp hi with rfl | hi
      · exact fun hne => absurd rfl hne
      · exact h.interfaces.titled i hi

theorem AllOrderly.addDefaultInterface (h : ns.AllOrderly a) :
    ns.addDefaultInterface.AllOrderly a := by
  refine h.congr ?_ ?_ ?_ <;> unfold Namespace.addDefaultInterface <;> split_ifs <;> rfl

theorem externalRef_addDefaultInterface (ns : Namespace) :
    ns.addDefaultInterface.externalRef = ns.externalRef := by
  unfold addDefaultInterface
  split_ifs <;> rfl

theorem allFields_addDefaultInterface (ns : Namespace) :
    ns.addDefaultInterface.allFields = ns.allFields := by
  refine allFields_congr ?_ ?_ <;> unfold addDefaultInterface <;> split_ifs <;> rfl

end Namespace

namespace Schema

variable {s : Schema}

/-! ### Schemas -/

/-- The changes of linking: references are bound, fields completed and messages numbered. -/
def linkMap (s : Schema) : Namespace.PartMap :=
  let completed := (s.bindRefs.1.withArena s.bindRefs.1.arena.breakCycles.1).completeFields.1
  ((Namespace.refsMap (bind s.root)).andThen (Namespace.completeMap completed.arena)).andThen
    (Namespace.messageMap fun m => { m with id := messageId? completed.root completed.arena m })

theorem keepsPaths_linkMap (s : Schema) : s.linkMap.KeepsPaths :=
  ((Namespace.keepsPaths_refsMap _).andThen (Namespace.keepsPaths_completeMap _)).andThen
    (Namespace.keepsPaths_messageMap fun _ => ⟨rfl, rfl⟩)

/-- **The root of a linked schema**: a default interface is added where there is no interface. -/
theorem root_link (s : Schema) :
    s.link.1.root = s.root.mapParts s.linkMap ∨
      (s.root.mapParts s.linkMap).allInterfaces = [] ∧
        s.link.1.root = (s.root.mapParts s.linkMap).addDefaultInterface := by
  let completed := (s.bindRefs.1.withArena s.bindRefs.1.arena.breakCycles.1).completeFields.1
  have hroot : completed.resolveIds.1.root = s.root.mapParts s.linkMap := by
    rw [linkMap, ← Namespace.mapParts_mapParts, ← Namespace.mapParts_mapParts,
      ← Namespace.mapRefs_eq_mapParts, ← Namespace.complete_fst_eq_mapParts,
      ← Namespace.mapMessages_eq_mapParts, resolveIds_eq]
    rfl
  rw [← hroot]
  unfold link
  dsimp only
  split_ifs with hnone
  · exact Or.inr ⟨List.isEmpty_iff.mp hnone, rfl⟩
  · exact Or.inl rfl

/-- **What the changes of linking establish, and a default interface does not break, holds of all
namespaces of a linked schema.** -/
theorem everywhere_link {Q R : Namespace → Prop} (hmap : ∀ n, Q n → R (n.mapParts s.linkMap))
    (hdefault : ∀ n, R n → R n.addDefaultInterface) (h : s.root.Everywhere Q) :
    s.link.1.root.Everywhere R := by
  have hlinked : (s.root.mapParts s.linkMap).Everywhere R := by
    intro n' hn'
    obtain ⟨n, hn, rfl⟩ := Namespace.within_mapParts_iff.mp hn'
    exact hmap n (h n hn)
  rcases s.root_link with hroot | ⟨-, hroot⟩ <;> rw [hroot]
  · exact hlinked
  · refine hlinked.of_own ?_ (hdefault _)
    unfold Namespace.addDefaultInterface
    split_ifs <;> rfl

@[simp] theorem version_link (s : Schema) : s.link.1.version = s.version := by
  unfold link
  dsimp only
  split_ifs <;> simp only [resolveIds, completeFields, withArena, bindRefs]

/-- The schema is indexed, and all lists of its namespaces are in order. -/
structure Arranged (s : Schema) : Prop where
  indexed : s.Indexed
  tidy : s.root.Everywhere Namespace.Tidy

/-- **Documents build schemas whose lists are in order.** -/
theorem Built.arranged (h : s.Built) : s.Arranged :=
  ⟨h.indexed, h.everywhere (Namespace.upkeep_tidy _)⟩

theorem size_arena_link (s : Schema) : s.link.1.arena.size = s.arena.size :=
  Arena.size_eq_of_map_get? s.externalRef_link

theorem Indexed.link (h : s.Indexed) : s.link.1.Indexed := by
  have horderly : (s.root.mapParts s.linkMap).AllOrderly s.link.1.arena :=
    h.orderly.mapParts s.externalRef_link
  have hlisted := h.listed
  rw [← size_arena_link, ← Namespace.allFields_mapParts s.linkMap] at hlisted
  rcases s.root_link with hroot | ⟨-, hroot⟩
  · refine ⟨?_, ?_, ?_⟩ <;> rw [hroot]
    · rw [Namespace.externalRef_mapParts]
      exact h.externalRef
    · exact horderly
    · exact hlisted
  · refine ⟨?_, ?_, ?_⟩ <;> rw [hroot]
    · rw [Namespace.externalRef_addDefaultInterface, Namespace.externalRef_mapParts]
      exact h.externalRef
    · exact horderly.addDefaultInterface
    · rw [Namespace.allFields_addDefaultInterface]
      exact hlisted

/-- **Linking leaves all lists in order.** -/
theorem Arranged.link (h : s.Arranged) : s.link.1.Arranged :=
  ⟨h.indexed.link, everywhere_link (fun _ => Namespace.Tidy.mapParts s.keepsPaths_linkMap)
    (fun _ => Namespace.Tidy.addDefaultInterface) h.tidy⟩

/-! ### Looking up -/

variable {n : Namespace}

theorem Arranged.findMessage?_eq_some_iff (h : s.Arranged) (hn : n.Within s.root) {m : Message}
    (hm : m ∈ n.messages) (path : String) :
    s.root.findMessage? path = some m ↔ path = m.externalRef :=
  Namespace.locate?_eq_some_iff h.indexed.orderly h.indexed.externalRef
    (fun n hn => (h.tidy n hn).messages) hn hm ((h.tidy n hn).message m hm) path

theorem Arranged.findFrame?_eq_some_iff (h : s.Arranged) (hn : n.Within s.root) {f : Frame}
    (hf : f ∈ n.frames) (path : String) :
    s.root.findFrame? path = some f ↔ path = f.externalRef :=
  Namespace.locate?_eq_some_iff h.indexed.orderly h.indexed.externalRef
    (fun n hn => (h.tidy n hn).frames) hn hf ((h.tidy n hn).frame f hf) path

theorem Arranged.findInterface?_eq_some_iff (h : s.Arranged) (hn : n.Within s.root)
    {i : Interface} (hi : i ∈ n.interfaces) (hne : i.name ≠ "") (path : String) :
    s.root.findInterface? path = some i ↔ path = i.externalRef :=
  Namespace.locate?_eq_some_iff h.indexed.orderly h.indexed.externalRef
    (fun n hn => (h.tidy n hn).interfaces) hn hi hne path

/-- **Each place of the arena is listed by one namespace.** -/
theorem Indexed.existsUnique_lists (h : s.Indexed) {id : FieldId} (hid : id < s.arena.size) :
    ∃! n : Namespace, n.Within s.root ∧ id ∈ n.fields.map (·.2) := by
  have hmem : id ∈ s.root.allFields := h.listed.mem_iff.mpr (List.mem_range.mpr hid)
  obtain ⟨n, hn, hlist⟩ := Namespace.mem_allFields_iff.mp hmem
  exact ⟨n, ⟨hn, hlist⟩, fun n' hn' => Namespace.eq_of_mem_fields h.orderly hn'.1 hn hn'.2 hlist⟩

end Schema

end WireSchema
