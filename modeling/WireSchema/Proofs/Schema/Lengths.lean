import WireSchema.Proofs.Field.Bounds
import WireSchema.Proofs.Schema.Fields
import WireSchema.Proofs.Schema.Following

/-! # Lengths in a linked schema

What holds of a field when it holds of those it asks for, holds of all fields where asking comes to
an end (`Arena.asks_induction`). So, for all fields of a linked schema, at any depth, and for all
messages, the least length is not greater than the greatest one (`minLength_le_maxLength_link`), and
both are the exact lengths cut at the limit (`lengths_cap_exact_lengths`). -/

namespace WireSchema

open Markup Relation

/-! ### Lengths in an arena -/

namespace Arena

variable {a : Arena} {D : Field → Prop} {f : Field}

/-- What holds of a field when it holds of all that it asks for, holds of every field of a domain
that asking does not leave. -/
theorem asks_induction {P : Field → Prop} (hac : a.Acyclic)
    (hD : ∀ f g, D f → a.Asks f g → D g)
    (step : ∀ f, D f → (∀ g, a.Asks f g → P g) → P f) (hf : D f) : P f := by
  induction acc_asks hac f with
  | intro f _ ih => exact step f hf fun g hg => ih g hg (hD f g hf hg)

section domain
variable (hac : a.Acyclic) (hD : ∀ f g, D f → a.Asks f g → D g) (hs : ∀ f, D f → f.body.Sized)

include hD hs

/-- **The least length caps the exact one.** -/
theorem caps_minLength (hf : D f) : Caps (a.minLength f) (a.exactMin hac f) := by
  refine asks_induction (P := fun f => Caps (a.minLength f) (a.exactMin hac f)) hac hD
    (fun f hf ih => ?_) hf
  rw [minLength_eq hac, exactMin_eq]
  refine caps_minLengthVia (hs f hf) (fun r hr => rel_behind caps_zero hr ih) fun g hg => ?_
  rw [← minLength_eq hac]
  exact ih g (Or.inl hg)

/-- **The greatest length caps the exact one.** -/
theorem caps_maxLength (hf : D f) : Caps (a.maxLength f) (a.exactMax hac f) := by
  refine asks_induction (P := fun f => Caps (a.maxLength f) (a.exactMax hac f)) hac hD
    (fun f hf ih => ?_) hf
  rw [maxLength_eq hac, exactMax_eq]
  refine caps_maxLengthVia (hs f hf) (fun r hr => rel_behind caps_unbounded hr ih) fun g hg => ?_
  rw [← maxLength_eq hac]
  exact ih g (Or.inl hg)

/-- **The exact lengths are in order.** -/
theorem exactMin_le_exactMax (hf : D f) : a.exactMin hac f ≤ a.exactMax hac f := by
  refine asks_induction (P := fun f => a.exactMin hac f ≤ a.exactMax hac f) hac hD
    (fun f hf ih => ?_) hf
  rw [exactMin_eq, exactMax_eq]
  exact Body.exactMin_le_exactMax (hs f hf) (fun r hr => rel_behind le_top hr ih)
    fun g hg => ih g (Or.inl hg)

end domain

/-- **One more member takes no bytes from a bundle.** -/
theorem lengths_le_append (hac : a.Acyclic) (core : FieldCore) (members more : List Field)
    (aliases : List Alias) :
    a.minLength (.mk core (.bundle members aliases)) ≤
        a.minLength (.mk core (.bundle (members ++ more) aliases)) ∧
      a.maxLength (.mk core (.bundle members aliases)) ≤
        a.maxLength (.mk core (.bundle (members ++ more) aliases)) := by
  constructor
  · rw [minLength_eq hac, minLength_eq hac, Field.minLengthVia, Field.minLengthVia,
      minOfMembers_eq_foldr, minOfMembers_eq_foldr, List.map_append]
    exact foldr_addLengths_le_append _ _
  · rw [maxLength_eq hac, maxLength_eq hac, Field.maxLengthVia, Field.maxLengthVia,
      maxOfMembers_eq_foldr, maxOfMembers_eq_foldr, List.map_append]
    exact foldr_addLengths_le_append _ _

end Arena

/-! ### Lengths in a schema -/

namespace Schema

variable {s : Schema} {f g : Field}

theorem Contains.of_asks (h : s.Contains f) (hg : s.arena.Asks f g) : s.Contains g := by
  rcases hg with hg | ⟨r, -, ht⟩
  · obtain ⟨k, hk, hf⟩ := h
    exact ⟨k, hk, ReflTransGen.tail hf hg⟩
  · exact .of_target ht

/-- The fields of a linked schema declare lengths within the limit. -/
theorem Built.sized_link (hs : s.Built) (h : s.link.1.Contains f) : f.body.Sized := by
  obtain ⟨g, hg, hf⟩ := h
  exact hs.throughout_link sized_readBody sized_mapRefs_iff sized_complete_iff g hg f hf

theorem contains_of_mem_messages {n : Namespace} {m : Message} (hn : n.Within s.root)
    (hm : m ∈ n.messages) (hf : f ∈ m.fields) : s.Contains f :=
  ⟨f, Or.inr ⟨n, hn, Or.inl ⟨m, hm, hf⟩⟩, ReflTransGen.refl⟩

/-- The exact least length of a field in the linked schema. -/
noncomputable def exactMin (s : Schema) : Field → ℕ∞ := s.link.1.arena.exactMin s.acyclic_link

/-- The exact greatest length of a field in the linked schema. -/
noncomputable def exactMax (s : Schema) : Field → ℕ∞ := s.link.1.arena.exactMax s.acyclic_link

theorem Built.caps_minLength (hs : s.Built) (h : s.link.1.Contains f) :
    Caps (s.link.1.arena.minLength f) (s.exactMin f) :=
  Arena.caps_minLength s.acyclic_link (fun _ _ hf => hf.of_asks) (fun _ => hs.sized_link) h

theorem Built.caps_maxLength (hs : s.Built) (h : s.link.1.Contains f) :
    Caps (s.link.1.arena.maxLength f) (s.exactMax f) :=
  Arena.caps_maxLength s.acyclic_link (fun _ _ hf => hf.of_asks) (fun _ => hs.sized_link) h

theorem Built.exactMin_le_exactMax (hs : s.Built) (h : s.link.1.Contains f) :
    s.exactMin f ≤ s.exactMax f :=
  Arena.exactMin_le_exactMax s.acyclic_link (fun _ _ hf => hf.of_asks) (fun _ => hs.sized_link) h

/-! ### The order of the lengths -/

/-- **The least length is not greater than the greatest one** in a linked schema, for its fields at
any depth and for its messages. It makes no difference which references are bound. -/
theorem minLength_le_maxLength_link (s : Schema) (hs : s.Built) :
    (∀ f, s.link.1.Contains f → s.link.1.arena.minLength f ≤ s.link.1.arena.maxLength f) ∧
      ∀ n : Namespace, n.Within s.link.1.root → ∀ m ∈ n.messages,
        s.link.1.arena.minLengthAll m.fields ≤ s.link.1.arena.maxLengthAll m.fields := by
  refine ⟨fun f hf => ?_, fun n hn m hm => ?_⟩
  · exact (hs.caps_minLength hf).mono (hs.caps_maxLength hf) (hs.exactMin_le_exactMax hf)
  · have hfields {f : Field} (hf : f ∈ m.fields) : s.link.1.Contains f :=
      contains_of_mem_messages hn hm hf
    refine Caps.mono (caps_foldl_addLengths fun f hf => hs.caps_minLength (hfields hf))
      (caps_foldl_addLengths fun f hf => hs.caps_maxLength (hfields hf)) ?_
    exact List.sum_le_sum fun f hf => hs.exactMin_le_exactMax (hfields hf)

/-- A document with two fields that refer to each other, a field that refers to none, and a message
with a bundle of them. -/
def looseDocument : Element :=
  ⟨"schema", [("name", "P")],
    [⟨"ref", [("name", "A"), ("field", "B")], [], "", 2⟩,
      ⟨"ref", [("name", "B"), ("field", "A")], [], "", 3⟩,
      ⟨"ref", [("name", "C"), ("field", "Z")], [], "", 4⟩,
      ⟨"message", [("name", "M"), ("id", "1")],
        [⟨"bundle", [("name", "D")],
          [⟨"ref", [("name", "X"), ("field", "A")], [], "", 7⟩,
            ⟨"ref", [("name", "Y"), ("field", "C")], [], "", 8⟩], "", 6⟩],
        "", 5⟩],
    "", 1⟩

/-- The lengths in the schema of `looseDocument` are in order, although a reference in it names no
field and another one is unbound to break a cycle. -/
theorem lengths_of_looseDocument :
    ∃ s : Schema, s.Built ∧ (∃ x ∈ s.link.2, x.reportsCycle) ∧
      (∃ x ∈ s.link.2, x.reportsUnresolved) ∧ (∃ f, s.link.1.Contains f) ∧
      (∀ f, s.link.1.Contains f → s.link.1.arena.minLength f ≤ s.link.1.arena.maxLength f) ∧
      ∀ n : Namespace, n.Within s.link.1.root → ∀ m ∈ n.messages,
        s.link.1.arena.minLengthAll m.fields ≤ s.link.1.arena.maxLengthAll m.fields := by
  have heval : (Session.after ⟨none, 0, none, false⟩ [.element looseDocument]).schema.any
      (fun s => (s.link.2.any Finding.reportsCycle && s.link.2.any Finding.reportsUnresolved) &&
        (s.link.1.arena.get? 0).isSome) = true := by
    decide +kernel
  cases hs : (Session.after ⟨none, 0, none, false⟩ [.element looseDocument]).schema with
  | none => simp [hs] at heval
  | some s =>
    rw [hs, Option.any_some, Bool.and_eq_true, Bool.and_eq_true, List.any_eq_true,
      List.any_eq_true] at heval
    obtain ⟨⟨hcycle, hunresolved⟩, hsome⟩ := heval
    obtain ⟨f, hf⟩ := Option.isSome_iff_exists.mp hsome
    have hbuilt : s.Built := (Session.reachable_after _ _).built (by decide +kernel) s hs
    exact ⟨s, hbuilt, hcycle, hunresolved, ⟨f, f, Or.inl ⟨0, hf⟩, ReflTransGen.refl⟩,
      minLength_le_maxLength_link s hbuilt⟩

/-! ### Exactness -/

/-- **Lengths are exact up to the limit.** In a linked schema the lengths of all fields, at any
depth, and of all messages are the exact ones cut at the limit. The exact lengths solve the
equations without a limit, where what is not bounded is infinite. Nothing unbounded becomes bounded,
and more members at the end take no bytes from a bundle or a message. -/
theorem lengths_cap_exact_lengths (s : Schema) (hs : s.Built) :
    (∀ f, s.exactMin f = f.body.exactMin s.exactMin (s.link.1.arena.behind s.exactMin 0) ∧
      s.exactMax f =
        f.body.exactMax s.link.1.arena s.exactMax (s.link.1.arena.behind s.exactMax ⊤)) ∧
    (∀ f, s.link.1.Contains f →
      (s.link.1.arena.minLength f : ℕ∞) = min (unbounded : ℕ∞) (s.exactMin f) ∧
      (s.link.1.arena.maxLength f : ℕ∞) = min (unbounded : ℕ∞) (s.exactMax f) ∧
      (s.exactMax f = ⊤ → s.link.1.arena.maxLength f = unbounded)) ∧
    (∀ n : Namespace, n.Within s.link.1.root → ∀ m ∈ n.messages,
      (s.link.1.arena.minLengthAll m.fields : ℕ∞) =
        min (unbounded : ℕ∞) (m.fields.map s.exactMin).sum ∧
      (s.link.1.arena.maxLengthAll m.fields : ℕ∞) =
        min (unbounded : ℕ∞) (m.fields.map s.exactMax).sum ∧
      ((m.fields.map s.exactMax).sum = ⊤ →
        s.link.1.arena.maxLengthAll m.fields = unbounded)) ∧
    (∀ core members more aliases,
      s.link.1.arena.minLength (.mk core (.bundle members aliases)) ≤
        s.link.1.arena.minLength (.mk core (.bundle (members ++ more) aliases)) ∧
      s.link.1.arena.maxLength (.mk core (.bundle members aliases)) ≤
        s.link.1.arena.maxLength (.mk core (.bundle (members ++ more) aliases))) ∧
    ∀ fields more : List Field,
      s.link.1.arena.minLengthAll fields ≤ s.link.1.arena.minLengthAll (fields ++ more) ∧
      s.link.1.arena.maxLengthAll fields ≤ s.link.1.arena.maxLengthAll (fields ++ more) := by
  have hac := s.acyclic_link
  refine ⟨fun f => ⟨Arena.exactMin_eq hac f, Arena.exactMax_eq hac f⟩, fun f hf => ?_,
    fun n hn m hm => ?_, Arena.lengths_le_append hac, fun fields more => ?_⟩
  · have hmax := hs.caps_maxLength hf
    exact ⟨hs.caps_minLength hf, hmax, fun htop => caps_top_iff.mp (htop ▸ hmax)⟩
  · have hfields {f : Field} (hf : f ∈ m.fields) : s.link.1.Contains f :=
      contains_of_mem_messages hn hm hf
    have hmin := caps_foldl_addLengths fun f hf => hs.caps_minLength (hfields hf)
    have hmax := caps_foldl_addLengths fun f hf => hs.caps_maxLength (hfields hf)
    exact ⟨hmin, hmax, fun htop => caps_top_iff.mp (htop ▸ hmax)⟩
  · rw [Arena.minLengthAll, Arena.minLengthAll, Arena.maxLengthAll, Arena.maxLengthAll,
      List.map_append, List.map_append]
    exact ⟨foldl_addLengths_le_append _ _, foldl_addLengths_le_append _ _⟩

/-- A document with a message of two lists. The count of the first one is a number of 64 bits, so
that its items may take more bytes than the limit; nothing bounds the second one. -/
def countedDocument : Element :=
  ⟨"schema", [("name", "P")],
    [⟨"int", [("name", "N"), ("type", "uint64")], [], "", 2⟩,
      ⟨"int", [("name", "A"), ("type", "uint16")], [], "", 3⟩,
      ⟨"list", [("name", "L"), ("element", "A"), ("countPrefix", "N")], [], "", 4⟩,
      ⟨"message", [("name", "M"), ("id", "1")],
        [⟨"ref", [("name", "X"), ("field", "L")], [], "", 6⟩,
          ⟨"list", [("name", "Y"), ("element", "A")], [], "", 7⟩],
        "", 5⟩],
    "", 1⟩

/-- The first list of `countedDocument` takes 8 bytes at least, and at most those of the limit. -/
theorem lengths_of_countedDocument :
    ∃ s : Schema, s.Built ∧
      (∃ f, s.link.1.Contains f ∧ s.link.1.arena.minLength f = 8 ∧
        s.link.1.arena.maxLength f = unbounded ∧
        s.exactMax f =
          f.body.exactMax s.link.1.arena s.exactMax (s.link.1.arena.behind s.exactMax ⊤) ∧
        8 = min (unbounded : ℕ∞) (s.exactMin f) ∧
        (unbounded : ℕ∞) = min (unbounded : ℕ∞) (s.exactMax f)) ∧
      ∃ m ∈ s.link.1.root.messages,
        (s.link.1.arena.minLengthAll m.fields : ℕ∞) =
          min (unbounded : ℕ∞) (m.fields.map s.exactMin).sum ∧
        (s.link.1.arena.maxLengthAll m.fields : ℕ∞) =
          min (unbounded : ℕ∞) (m.fields.map s.exactMax).sum := by
  have heval : (Session.after ⟨none, 0, none, false⟩ [.element countedDocument]).schema.any
      (fun s => (s.link.1.arena.get? 2).any (fun f => s.link.1.arena.minLength f == 8 &&
        s.link.1.arena.maxLength f == unbounded) && !s.link.1.root.messages.isEmpty) = true := by
    decide +kernel
  cases hs : (Session.after ⟨none, 0, none, false⟩ [.element countedDocument]).schema with
  | none => simp [hs] at heval
  | some s =>
    rw [hs, Option.any_some, Bool.and_eq_true, Option.any_eq_true] at heval
    obtain ⟨⟨f, hf, hlengths⟩, hmessages⟩ := heval
    rw [Bool.and_eq_true, beq_iff_eq, beq_iff_eq] at hlengths
    obtain ⟨hmin, hmax⟩ := hlengths
    have hbuilt : s.Built := (Session.reachable_after _ _).built (by decide +kernel) s hs
    obtain ⟨hexact, hfields, hall, -⟩ := lengths_cap_exact_lengths s hbuilt
    have hcontains : s.link.1.Contains f := ⟨f, Or.inl ⟨2, hf⟩, ReflTransGen.refl⟩
    obtain ⟨hleast, hgreatest, -⟩ := hfields f hcontains
    rw [hmin] at hleast
    rw [hmax] at hgreatest
    obtain ⟨m, hm⟩ := List.exists_mem_of_ne_nil s.link.1.root.messages (by simpa using hmessages)
    obtain ⟨hmin', hmax', -⟩ := hall s.link.1.root ReflTransGen.refl m hm
    exact ⟨s, hbuilt, ⟨f, hcontains, hmin, hmax, (hexact f).2, hleast, hgreatest⟩, m, hm, hmin',
      hmax'⟩

end Schema

end WireSchema
