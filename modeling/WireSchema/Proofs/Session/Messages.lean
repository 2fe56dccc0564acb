import WireSchema.Proofs.Schema.Numbering
import WireSchema.Proofs.Session.Lookup

/-! # The messages of a checked session

After a check that succeeds every message has the number that its id says, the numbers differ unless
they need not, and the list of messages holds those that the gate admits, in the order of their
numbers (`messages_are_numbered`). Messages with the same number keep their order, since sorting is
stable (`filter_mergeSort`). -/

namespace WireSchema

open Markup

/-- **Sorting is stable**: it leaves items as they are that are in order already. -/
theorem filter_mergeSort {α : Type} {le : α → α → Bool} {p : α → Bool} {xs : List α}
    (htrans : ∀ a b c, le a b = true → le b c = true → le a c = true)
    (htotal : ∀ a b, (le a b || le b a) = true)
    (hp : (xs.filter p).Pairwise fun a b => le a b = true) :
    (xs.mergeSort le).filter p = xs.filter p := by
  have hsub : (xs.filter p).Sublist (xs.mergeSort le) :=
    List.sublist_mergeSort htrans htotal hp List.filter_sublist
  have hfiltered := hsub.filter p
  simp only [List.filter_filter, Bool.and_self] at hfiltered
  have hlength : (xs.filter p).length = ((xs.mergeSort le).filter p).length :=
    ((List.mergeSort_perm xs le).filter p).length_eq.symm
  exact (hfiltered.eq_of_length hlength).symm

namespace Session

variable {s : Session} {schema : Schema} {m : Message}

theorem idLe_trans (a b c : Option Int) (hab : idLe a b = true) (hbc : idLe b c = true) :
    idLe a c = true := by
  cases a <;> cases b <;> cases c <;> simp [idLe] at hab hbc ⊢
  omega

theorem idLe_total (a b : Option Int) : (idLe a b || idLe b a) = true := by
  cases a <;> cases b <;> simp [idLe]
  omega

theorem allMessages_perm (h : s.schema = some schema) : s.allMessages.Perm
    (schema.root.allMessages.filter fun m => s.gate.admits m.window) := by
  unfold allMessages
  rw [h]
  exact List.mergeSort_perm _ _

theorem pairwise_allMessages (s : Session) :
    s.allMessages.Pairwise fun m m' => idLe m.id m'.id = true := by
  unfold allMessages
  split
  · exact List.Pairwise.nil
  · exact List.pairwise_mergeSort (fun a b c => idLe_trans a.id b.id c.id)
      (fun a b => idLe_total a.id b.id) _

/-- Messages with the same number are in the order of the tree of namespaces. -/
theorem filter_allMessages (h : s.schema = some schema) (v : Int) :
    s.allMessages.filter (·.id == some v) =
      (schema.root.allMessages.filter fun m => s.gate.admits m.window).filter (·.id == some v) := by
  unfold allMessages
  rw [h]
  refine filter_mergeSort (fun a b c => idLe_trans a.id b.id c.id)
    (fun a b => idLe_total a.id b.id) (List.pairwise_of_forall_mem_list fun a ha b hb => ?_)
  have hida := beq_iff_eq.mp (List.mem_filter.mp ha).2
  have hidb := beq_iff_eq.mp (List.mem_filter.mp hb).2
  rw [hida, hidb]
  simp [idLe]

/-- **Messages are numbered and listed.** After a check that succeeds, every message has a number,
which is its id, or the number of the value that its symbolic id names. All numbers in the tree of
namespaces differ, unless they need not. The list of messages holds those of the tree that the gate
admits, each once, in the order of their numbers; those with the same number are in the order of the
tree. -/
theorem messages_are_numbered (config : Config) (calls : List Call) (s : Session) (schema : Schema)
    (hs : (after config calls).validate = (s, true)) (h : s.schema = some schema) :
    (∀ n : Namespace, n.Within schema.root → ∀ m ∈ n.messages, ∃ v, m.id = some v ∧
      (Literal.int? m.idSpec = some v ∨
        Literal.int? m.idSpec = none ∧ schema.NumbersId n.externalRef m.idSpec v)) ∧
    (schema.nonUniqueMsgIdAllowed = false → (schema.root.allMessages.map Message.id).Nodup) ∧
    (∀ m, m ∈ s.allMessages ↔
      (∃ n : Namespace, n.Within schema.root ∧ m ∈ n.messages) ∧ s.gate.admits m.window = true) ∧
    (s.allMessages.map Message.externalRef).Nodup ∧
    (s.allMessages.Pairwise fun m m' => ∃ v v', m.id = some v ∧ m'.id = some v' ∧ v ≤ v') ∧
    ∀ v, s.allMessages.filter (·.id == some v) =
      (schema.root.allMessages.filter fun m => s.gate.admits m.window).filter
        (·.id == some v) := by
  have hok : (after config calls).validate.2 = true := by rw [hs]
  obtain ⟨_, hschema, built, hbuilt, rfl, hclean, dependent, hcheck⟩ :=
    (reachable_after config calls).exists_checked hok
  rw [hs] at hschema
  obtain rfl := Option.some.inj (h.symm.trans hschema)
  have harranged := hbuilt.arranged.link
  have hid {m : Message} (hm : m ∈ built.link.1.root.allMessages) : ∃ v, m.id = some v :=
    Schema.exists_id_of_link hclean hm
  have hmem (m : Message) : m ∈ s.allMessages ↔
      m ∈ built.link.1.root.allMessages ∧ s.gate.admits m.window = true :=
    (allMessages_perm h).mem_iff.trans List.mem_filter
  refine ⟨fun n hn m hm => ?_, fun hunique => ?_, fun m => ?_, ?_, ?_, filter_allMessages h⟩
  · obtain ⟨v, hv⟩ := hid (Namespace.mem_allMessages_iff.mpr ⟨n, hn, hm⟩)
    exact ⟨v, hv, Schema.number_of_id_link hbuilt hn hm hv⟩
  · exact Schema.nodup_ids_of_check hcheck hunique fun m => hid
  · rw [hmem, Namespace.mem_allMessages_iff]
  · have hnodup := Namespace.nodup_paths_allMessages harranged.indexed.orderly harranged.tidy
    refine ((allMessages_perm h).map _).nodup_iff.mpr ?_
    exact hnodup.sublist (List.filter_sublist.map _)
  · refine s.pairwise_allMessages.imp_of_mem fun {m m'} hm hm' hle => ?_
    obtain ⟨v, hv⟩ := hid ((hmem m).mp hm).1
    obtain ⟨v', hv'⟩ := hid ((hmem m').mp hm').1
    rw [hv, hv'] at hle
    exact ⟨v, v', hv, hv', by simpa [idLe] using hle⟩

/-- A document with symbolic ids: of a value that the enumeration next to the message has, of one
that it lacks, and of one behind a reference. The last message comes later than version 1. -/
def numberedDocument : Element :=
  ⟨"schema", [("name", "P"), ("version", "2")],
    [⟨"enum", [("name", "E"), ("type", "uint8")],
        [⟨"validValue", [("name", "A"), ("val", "1")], [], "", 3⟩,
          ⟨"validValue", [("name", "B"), ("val", "2")], [], "", 4⟩],
        "", 2⟩,
      ⟨"ref", [("name", "R"), ("field", "E")], [], "", 5⟩,
      ⟨"message", [("name", "C"), ("id", "R.A")], [], "", 6⟩,
      ⟨"ns", [("name", "N")],
        [⟨"enum", [("name", "E"), ("type", "uint8"), ("defaultValue", "A")],
            [⟨"validValue", [("name", "A"), ("val", "7")], [], "", 9⟩],
            "", 8⟩,
          ⟨"message", [("name", "D"), ("id", "E.A")], [], "", 10⟩,
          ⟨"message", [("name", "F"), ("id", "E.B")], [], "", 11⟩,
          ⟨"message", [("name", "G"), ("id", "0"), ("sinceVersion", "2")], [], "", 12⟩],
        "", 7⟩],
    "", 1⟩

/-- A session that has taken `numberedDocument`; version 1 is in effect. -/
def numberedSession : Session := after ⟨some 1, 0, none, false⟩ [.element numberedDocument]

/-- The messages have the numbers 1, 7, 2 and 0; the last one is not admitted. -/
theorem messages_of_numberedSession :
    ∃ (s : Session) (schema : Schema), numberedSession.validate = (s, true) ∧
      s.schema = some schema ∧
      schema.root.allMessages.map (fun m => (m.externalRef, m.idSpec, m.id)) =
        [("C", "R.A", some 1), ("N.D", "E.A", some 7), ("N.F", "E.B", some 2),
          ("N.G", "0", some 0)] ∧
      (schema.root.allMessages.map Message.id).Nodup ∧
      (∀ n : Namespace, n.Within schema.root → ∀ m ∈ n.messages, ∃ v, m.id = some v) ∧
      (s.allMessages.map Message.externalRef).Perm ["C", "N.D", "N.F"] ∧
      s.allMessages.Pairwise fun m m' => ∃ v v', m.id = some v ∧ m'.id = some v' ∧ v ≤ v' := by
  have hok : numberedSession.validate.2 = true := by decide +kernel
  have heval : (numberedSession.validate.1.schema.map fun schema =>
      (schema.nonUniqueMsgIdAllowed,
        schema.root.allMessages.map fun m => (m.externalRef, m.idSpec, m.id))) =
      some (false, [("C", "R.A", some 1), ("N.D", "E.A", some 7), ("N.F", "E.B", some 2),
        ("N.G", "0", some 0)]) := by decide +kernel
  have hadmitted : (numberedSession.validate.1.schema.map fun schema =>
      (schema.root.allMessages.filter fun m =>
        numberedSession.validate.1.gate.admits m.window).map Message.externalRef) =
      some ["C", "N.D", "N.F"] := by decide +kernel
  have hs : numberedSession.validate = (numberedSession.validate.1, true) := Prod.ext rfl hok
  simp only [Option.map_eq_some_iff, Prod.mk.injEq] at heval
  obtain ⟨schema, hschema, hunique, hids⟩ := heval
  rw [hschema, Option.map_some, Option.some.injEq] at hadmitted
  obtain ⟨hnumbers, hdiffer, -, -, hsorted, -⟩ := messages_are_numbered _ _ _ schema hs hschema
  refine ⟨_, schema, hs, hschema, hids, hdiffer hunique, fun n hn m hm => ?_, ?_, hsorted⟩
  · obtain ⟨v, hv, -⟩ := hnumbers n hn m hm
    exact ⟨v, hv⟩
  · rw [← hadmitted]
    exact (allMessages_perm hschema).map _

end Session

end WireSchema
