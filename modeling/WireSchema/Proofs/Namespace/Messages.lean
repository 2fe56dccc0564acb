import Mathlib.Data.List.Nodup
import WireSchema.Proofs.Namespace.Parts
import WireSchema.Proofs.Namespace.Tidiness

/-! # The messages of a namespace

The list of all messages holds those of the namespaces within (`mem_allMessages_iff`). Where the
namespaces are in order, no two of them have the same path (`nodup_paths_allMessages`), and the path
of the namespace of a message can be read off the path of the message (`scope_eq`). -/

namespace WireSchema

open Relation

/-- **The path of a message begins with that of its namespace.** -/
theorem Message.scope_eq {m : Message} {scope name : String} (hname : Literal.isName name = true)
    (h : m.externalRef = qualify scope name) : m.scope = scope := by
  have hnot : '.' ∉ name.toList := Literal.not_mem_of_isNameText hname
  rw [Message.scope, Text.cutLastString]
  rw [h, qualify]
  split_ifs with hempty
  · rw [Text.cutLast_eq_none hnot]
    exact (String.isEmpty_iff.mp hempty).symm
  · have htext : s!"{scope}.{name}".toList = scope.toList ++ '.' :: name.toList := by
      simp [toString]
    rw [htext, Text.cutLast_append hnot]
    simp

namespace Namespace

variable {a : Arena} {ns : Namespace} {m : Message}

/-! ### All messages -/

theorem allMessagesIn_eq_flatMap (ns : List Namespace) :
    allMessagesIn ns = ns.flatMap allMessages := by
  induction ns with
  | nil => simp [allMessagesIn]
  | cons n ns ih => simp [allMessagesIn, ih]

theorem allMessages_eq (ns : Namespace) :
    ns.allMessages = ns.messages ++ ns.namespaces.flatMap allMessages := by
  obtain ⟨name, externalRef, description, fields, interfaces, messages, frames, namespaces⟩ := ns
  rw [allMessages, allMessagesIn_eq_flatMap]

theorem mem_allMessages_iff :
    m ∈ ns.allMessages ↔ ∃ n : Namespace, n.Within ns ∧ m ∈ n.messages :=
  mem_flattened_iff allMessages_eq

theorem allMessages_addDefaultInterface (ns : Namespace) :
    ns.addDefaultInterface.allMessages = ns.allMessages := by
  rw [allMessages_eq, allMessages_eq]
  unfold addDefaultInterface
  split_ifs <;> rfl

/-! ### Each message once -/

theorem Filed.nodup_paths {α : Type} {name path : α → String} {scope : String} {xs : List α}
    (h : Filed name path scope xs) (hne : ∀ x ∈ xs, name x ≠ "") : (xs.map path).Nodup := by
  rw [List.Nodup, List.pairwise_map]
  refine h.sorted.imp_of_mem fun {x y} hx hy hlt heq => ?_
  have hx' := h.segments hx (hne x hx)
  rw [heq, h.segments hy (hne y hy), List.append_cancel_left_eq, List.cons.injEq] at hx'
  rw [hx'.1] at hlt
  exact lt_irrefl _ hlt

/-- The path of a message goes on from that of each namespace that it is within. -/
theorem exists_segments_of_mem_allMessages (ho : ns.AllOrderly a) (ht : ns.Everywhere Tidy)
    (hm : m ∈ ns.allMessages) : ∃ path, path ≠ [] ∧
      Literal.segments m.externalRef = Literal.scopeSegments ns.externalRef ++ path := by
  obtain ⟨n, hn, hm⟩ := mem_allMessages_iff.mp hm
  obtain ⟨path, hne, hpath⟩ := exists_scope? ho hn m.name
  refine ⟨path, hne, ?_⟩
  rw [(ht n hn).messages.segments hm ((ht n hn).message m hm)]
  exact (scopeSegments_of_scope? ho hpath).2

/-- **No two messages have the same path**, so that none is listed twice. -/
theorem nodup_paths_allMessages (ho : ns.AllOrderly a) (ht : ns.Everywhere Tidy) :
    (ns.allMessages.map Message.externalRef).Nodup := by
  induction ns using nested_induction with
  | step ns ih =>
    obtain ⟨hns, hall⟩ := allOrderly_iff.mp ho
    obtain ⟨htidy, htall⟩ := everywhere_iff.mp ht
    -- the path of a message in a nested namespace goes on with the name of that, and then further
    have hnested {c : Namespace} (hc : c ∈ ns.namespaces) {m : Message} (hm : m ∈ c.allMessages) :
        ∃ path, path ≠ [] ∧ Literal.segments m.externalRef =
          Literal.scopeSegments ns.externalRef ++ c.name :: path := by
      obtain ⟨path, hne, hpath⟩ :=
        exists_segments_of_mem_allMessages (hall c hc) (htall c hc) hm
      obtain ⟨hname, href⟩ := hns.nested c hc
      refine ⟨path, hne, ?_⟩
      rw [hpath, href, Literal.scopeSegments_qualify hname, List.append_assoc,
        List.singleton_append]
    rw [allMessages_eq, List.map_append, List.map_flatMap, List.nodup_append]
    refine ⟨htidy.messages.nodup_paths htidy.message, ?_, ?_⟩
    · rw [List.nodup_flatMap]
      refine ⟨fun c hc => ih c hc (hall c hc) (htall c hc), ?_⟩
      refine hns.sorted_namespaces.imp_of_mem fun {c d} hc hd hlt => ?_
      intro path hpc hpd
      obtain ⟨m, hm, rfl⟩ := List.mem_map.mp hpc
      obtain ⟨m', hm', heq⟩ := List.mem_map.mp hpd
      obtain ⟨p, -, hp⟩ := hnested hc hm
      obtain ⟨q, -, hq⟩ := hnested hd hm'
      rw [heq, hp, List.append_cancel_left_eq, List.cons.injEq] at hq
      rw [hq.1] at hlt
      exact lt_irrefl _ hlt
    · intro path hown path' hpath' heq
      obtain ⟨m, hm, rfl⟩ := List.mem_map.mp hown
      obtain ⟨c, hc, hpath'⟩ := List.mem_flatMap.mp hpath'
      obtain ⟨m', hm', rfl⟩ := List.mem_map.mp hpath'
      obtain ⟨p, hne, hp⟩ := hnested hc hm'
      rw [← heq, htidy.messages.segments hm (htidy.message m hm), List.append_cancel_left_eq,
        List.cons.injEq] at hp
      exact hne hp.2.symm

/-! ### Names lead to the same fields -/

theorem child?_mapParts (g : PartMap) (ns : Namespace) (key : String) :
    (ns.mapParts g).child? key = (ns.child? key).map (mapParts g) := by
  unfold child? findNamed?
  rw [namespaces_mapParts, List.find?_map]
  simp only [Function.comp_def, name_mapParts]

theorem scope?_mapParts (g : PartMap) (path : List String) (ns : Namespace) :
    (ns.mapParts g).scope? path = (ns.scope? path).map fun p => (p.1.mapParts g, p.2) := by
  induction path generalizing ns with
  | nil => rfl
  | cons first rest ih =>
    cases rest with
    | nil => rfl
    | cons second rest =>
      rw [scope?_cons (List.cons_ne_nil _ _), scope?_cons (List.cons_ne_nil _ _),
        child?_mapParts, Option.bind_map, Option.map_bind]
      exact congrArg _ (funext fun n => ih n)

/-- **A change of interfaces, messages and frames leaves alone where paths lead.** -/
theorem findField?_mapParts (g : PartMap) (ns : Namespace) (path : String) :
    (ns.mapParts g).findField? path = ns.findField? path := by
  unfold findField? locate?
  rw [scope?_mapParts, Option.bind_map]
  refine congrArg _ (funext fun p => ?_)
  simp only [Function.comp_apply, ownField?, fields_mapParts]

end Namespace

end WireSchema
