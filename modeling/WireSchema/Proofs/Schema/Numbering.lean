import WireSchema.Proofs.Namespace.Messages
import WireSchema.Proofs.Schema.Checking
import WireSchema.Proofs.Schema.Fields

/-! # The numbers of messages

A message that is read has the number of its id, if the id is one (`Message.id_of_read`). Linking
gives a message with a symbolic id the number of the value that the id names (`number_of_id_link`):
first as the namespace of the message sees it, and else as the root does. If linking finds no error,
every message has a number (`exists_id_of_link`), and if the check passes, the numbers differ
(`nodup_ids_of_check`). -/

namespace WireSchema

open Markup Relation

/-! ### Messages that are read -/

theorem Message.id_of_read {ctx : Context} {e : Element} :
    (Message.read ctx e).Yields fun m => m.id = Literal.int? m.idSpec := by
  unfold Message.read
  refine Pass.yields_bind fun _ => Pass.yields_bind fun _ => Pass.yields_bind fun idSpec => ?_
  refine Pass.yields_bind fun _ => Pass.yields_bind fun _ => Pass.yields_bind fun _ => ?_
  refine Pass.yields_bind fun _ => Pass.yields_bind fun _ => Pass.yields_bind fun _ => ?_
  exact Pass.yields_bind fun _ => Pass.yields_bind fun _ => Pass.yields_pure rfl

namespace Schema

variable {s : Schema} {n : Namespace} {m : Message}

theorem Built.id_eq (h : s.Built) (hn : n.Within s.root) (hm : m ∈ n.messages) :
    m.id = Literal.int? m.idSpec := by
  have hroot : s.root.Everywhere (Namespace.AllParts (fun _ => True)
      (fun m => m.id = Literal.int? m.idSpec) fun _ => True) :=
    h.everywhere (Namespace.upkeep_allParts (fun _ _ _ _ _ => trivial)
      (fun _ _ _ => Message.id_of_read) fun _ _ _ _ _ => trivial)
  exact (hroot n hn).message m hm

theorem Built.scope_eq (h : s.Built) (hn : n.Within s.root) (hm : m ∈ n.messages) :
    m.scope = n.externalRef := by
  have htidy := h.arranged.tidy n hn
  obtain ⟨hname, hpath⟩ := htidy.messages.titled m hm (htidy.message m hm)
  exact Message.scope_eq hname hpath

/-! ### Symbolic ids -/

/-- The field with the path is an enumeration, or leads to one, and this has a value with the name
and the number. -/
def Numbers (s : Schema) (path name : String) (v : Int) : Prop :=
  ∃ id f t e x, s.arena.get? id = some f ∧ f.externalRef = path ∧
    s.arena.resolved f = some t ∧ t.enum? = some e ∧ e.value? name = some x ∧ x.value = v

/-- The symbolic id is the path of an enumeration, a dot and the name of a value. The number is that
of the value in the enumeration with the path relative to the scope, if this has the value, and else
in that with the path from the root. -/
def NumbersId (s : Schema) (scope spec : String) (v : Int) : Prop :=
  ∃ path name, spec = s!"{path}.{name}" ∧ '.' ∉ name.toList ∧
    (s.Numbers (qualify scope path) name v ∨
      (∀ w, ¬ s.Numbers (qualify scope path) name w) ∧ s.Numbers path name v)

/-- The schema with references bound and fields completed. -/
def completed (s : Schema) : Schema :=
  (s.bindRefs.1.withArena s.bindRefs.1.arena.breakCycles.1).completeFields.1

theorem findField?_completed (s : Schema) (path : String) :
    s.completed.root.findField? path = s.root.findField? path := by
  have hroot : s.completed.root =
      ((s.root.mapRefs (bind s.root)).complete s.completed.arena).1 := rfl
  rw [hroot, Namespace.complete_fst_eq_mapParts, Namespace.mapRefs_eq_mapParts,
    Namespace.findField?_mapParts, Namespace.findField?_mapParts]

theorem enumNumber?_eq_some_iff (hs : s.Indexed) {path name : String} {v : Int} :
    enumNumber? s.completed.root s.completed.arena path name = some v ↔
      s.link.1.Numbers path name v := by
  have harena : s.completed.arena = s.link.1.arena := s.arena_link.symm
  unfold enumNumber? Numbers
  rw [findField?_completed, harena]
  simp only [Option.bind_eq_some_iff, Option.map_eq_some_iff]
  constructor
  · rintro ⟨e, ⟨t, ⟨f, ⟨id, hid, hf⟩, ht⟩, he⟩, x, hx, hv⟩
    obtain ⟨f', hf', hpath⟩ := (findField?_link hs).mp hid
    rw [hf, Option.some.injEq] at hf'
    exact ⟨id, f, t, e, x, hf, hf' ▸ hpath, ht, he, hx, hv⟩
  · rintro ⟨id, f, t, e, x, hf, hpath, ht, he, hx, hv⟩
    exact ⟨e, ⟨t, ⟨f, ⟨id, (findField?_link hs).mpr ⟨f, hf, hpath⟩, hf⟩, ht⟩, he⟩, x, hx, hv⟩

/-- **A symbolic id is looked up as the scope sees it, and else from the root.** -/
theorem numbersId_of_symbolicId? (hs : s.Indexed) {scope spec : String} {v : Int}
    (h : symbolicId? s.completed.root s.completed.arena scope spec = some v) :
    s.link.1.NumbersId scope spec v := by
  obtain ⟨⟨path, name⟩, hcut, h⟩ := Option.bind_eq_some_iff.mp h
  obtain ⟨hspec, hdot⟩ := Text.cutLastString_eq_some hcut
  refine ⟨path, name, hspec, hdot, ?_⟩
  unfold qualify
  dsimp only at h
  split_ifs at h ⊢ with hscope
  · exact Or.inl ((enumNumber?_eq_some_iff hs).mp h)
  · cases hrelative : enumNumber? s.completed.root s.completed.arena s!"{scope}.{path}" name with
    | some w =>
      rw [hrelative, Option.some_or, Option.some.injEq] at h
      exact Or.inl ((enumNumber?_eq_some_iff hs).mp (h ▸ hrelative))
    | none =>
      rw [hrelative, Option.none_or] at h
      refine Or.inr ⟨fun w hw => ?_, (enumNumber?_eq_some_iff hs).mp h⟩
      rw [(enumNumber?_eq_some_iff hs).mpr hw] at hrelative
      cases hrelative

theorem id_linkMap (s : Schema) (m : Message) : (s.linkMap.message m).id =
    m.id.or (symbolicId? s.completed.root s.completed.arena m.scope m.idSpec) := rfl

/-- **The number of a message in a linked schema is that of its id**: a number, or the number of the
value that the id names. -/
theorem number_of_id_link (hs : s.Built) (hn : n.Within s.link.1.root) (hm : m ∈ n.messages)
    {v : Int} (hv : m.id = some v) : Literal.int? m.idSpec = some v ∨
      Literal.int? m.idSpec = none ∧ s.link.1.NumbersId n.externalRef m.idSpec v := by
  have hlink : s.link.1.root.Everywhere fun n => ∀ m ∈ n.messages, m.id =
      (Literal.int? m.idSpec).or
        (symbolicId? s.completed.root s.completed.arena n.externalRef m.idSpec) := by
    have hread : s.root.Everywhere fun n => ∀ m ∈ n.messages,
        m.id = Literal.int? m.idSpec ∧ m.scope = n.externalRef :=
      fun n hn m hm => ⟨hs.id_eq hn hm, hs.scope_eq hn hm⟩
    refine everywhere_link (fun n hn => ?_) (fun n hn => ?_) hread
    · rw [Namespace.messages_mapParts, List.forall_mem_map, Namespace.externalRef_mapParts]
      intro m hm
      obtain ⟨hid, hscope⟩ := hn m hm
      rw [id_linkMap, hid, hscope]
      rfl
    · unfold Namespace.addDefaultInterface
      split_ifs <;> exact hn
  have hid := hlink n hn m hm
  rw [hv] at hid
  cases hliteral : Literal.int? m.idSpec with
  | some w =>
    rw [hliteral, Option.some_or] at hid
    exact Or.inl hid.symm
  | none =>
    rw [hliteral, Option.none_or] at hid
    exact Or.inr ⟨rfl, numbersId_of_symbolicId? hs.indexed hid.symm⟩

theorem allMessages_link (s : Schema) :
    s.link.1.root.allMessages = s.completed.resolveIds.1.root.allMessages := by
  unfold link
  dsimp only
  split_ifs
  · exact Namespace.allMessages_addDefaultInterface _
  · rfl

/-- **If linking finds no error, every message has a number.** -/
theorem exists_id_of_link (hclean : ∀ x ∈ s.link.2, x.isError = false)
    (hm : m ∈ s.link.1.root.allMessages) : ∃ v, m.id = some v := by
  cases hid : m.id with
  | some v => exact ⟨v, rfl⟩
  | none =>
    rw [allMessages_link] at hm
    have hfinding : (⟨m.line, .error (.unknownMessageId m.name m.idSpec)⟩ : Finding) ∈
        s.completed.resolveIds.2 := by
      rw [resolveIds_eq] at hm ⊢
      exact List.mem_filterMap.mpr ⟨m, hm, by rw [unknownId?, hid]⟩
    have hmem := List.mem_append_right s.bindRefs.2 (List.mem_append_right
      s.bindRefs.1.arena.breakCycles.2 (List.mem_append_right
        (s.bindRefs.1.withArena s.bindRefs.1.arena.breakCycles.1).completeFields.2 hfinding))
    have herror := hclean _ hmem
    simp [Finding.isError] at herror

/-! ### Different numbers -/

/-- A message that passes has a number that is new, and the messages after it know of it. -/
theorem checkIds_cons_eq_ok {seen : List (Int × String)} {ms : List Message}
    (h : (checkIds seen (m :: ms)).result = .ok true) :
    ∃ known, (checkIds known ms).result = .ok true ∧ seen ⊆ known ∧
      ∀ v, m.id = some v → (∀ p ∈ seen, p.1 ≠ v) ∧ ∃ p ∈ known, p.1 = v := by
  rw [checkIds] at h
  cases hid : m.id with
  | none =>
    rw [hid] at h
    refine ⟨seen, h, List.Subset.refl _, fun v hv => ?_⟩
    cases hv
  | some w =>
    rw [hid] at h
    dsimp only at h
    cases hfind : seen.find? (·.1 == w) with
    | some first =>
      rw [hfind] at h
      obtain ⟨_, -, h⟩ := Pass.result_bind_eq_ok.mp h
      obtain ⟨_, -, h⟩ := Pass.result_bind_eq_ok.mp h
      rw [Pass.result_pure, Except.ok.injEq] at h
      cases h
    | none =>
      rw [hfind] at h
      refine ⟨_, h, List.subset_cons_self _ _, fun v hv => ?_⟩
      obtain rfl := Option.some.inj hv
      refine ⟨fun p hp => ?_, _, List.mem_cons_self, rfl⟩
      simpa using List.find?_eq_none.mp hfind p hp

/-- Messages that pass have numbers that are new, and each another one. -/
theorem checkIds_eq_ok {seen : List (Int × String)} {ms : List Message}
    (h : (checkIds seen ms).result = .ok true) :
    (∀ m ∈ ms, ∀ v, m.id = some v → ∀ p ∈ seen, p.1 ≠ v) ∧
      ms.Pairwise fun m m' => ∀ v, m.id = some v → m'.id ≠ some v := by
  induction ms generalizing seen with
  | nil => exact ⟨fun m hm => absurd hm List.not_mem_nil, List.Pairwise.nil⟩
  | cons m ms ih =>
    obtain ⟨known, hrest, hsub, hfirst⟩ := checkIds_cons_eq_ok h
    obtain ⟨hnew, hpairwise⟩ := ih hrest
    refine ⟨List.forall_mem_cons.mpr ⟨fun v hv => (hfirst v hv).1, fun m' hm' v hv p hp => ?_⟩,
      List.pairwise_cons.mpr ⟨fun m' hm' v hv hv' => ?_, hpairwise⟩⟩
    · exact hnew m' hm' v hv p (hsub hp)
    · obtain ⟨p, hp, heq⟩ := (hfirst v hv).2
      exact hnew m' hm' v hv' p hp heq

/-- **If the check passes, no two messages have the same number**, unless they may. -/
theorem nodup_ids_of_check {dependent : Bool} (h : (s.check dependent).result = .ok true)
    (hunique : s.nonUniqueMsgIdAllowed = false)
    (hid : ∀ m ∈ s.root.allMessages, ∃ v, m.id = some v) :
    (s.root.allMessages.map Message.id).Nodup := by
  obtain ⟨-, hids⟩ := Pass.result_and_eq_ok.mp h
  rw [checkMessageIds, hunique] at hids
  obtain ⟨-, hpairwise⟩ := checkIds_eq_ok hids
  rw [List.Nodup, List.pairwise_map]
  refine hpairwise.imp_of_mem fun {m m'} hm _ hne heq => ?_
  obtain ⟨v, hv⟩ := hid m hm
  exact hne v hv (heq ▸ hv)

end Schema

end WireSchema
