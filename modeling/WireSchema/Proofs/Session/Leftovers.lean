import WireSchema.Proofs.Namespace.Strangers
import WireSchema.Proofs.Session.Sealing
import WireSchema.Proofs.Session.Splitting

/-! # What is left over in documents

A document that is accepted is added without an error (`exists_taken_of_verdict?`). Then each place
in it that reading comes to gives its warnings, and the session reports them
(`reportsLeftovers_perform`). If nothing is passed over in silence, this is all that a parent does
not understand (`ReportsLeftovers.reportsStrangers`). But there are places where nothing is reported
(`leftovers_without_report`): children of messages, interfaces, layers and wrappers of declarations,
properties of frames, of wrappers and of later documents, and children that have the name of a
property and no value. -/

namespace WireSchema

open Markup

namespace Schema

variable {s : Schema} {e : Element}

theorem warned_read (h : (Schema.read e).result = .ok s) :
    Warned (· ∈ (Schema.read e).findings) (strangeProperties "schema" properties e) := by
  have h : (Schema.read e).EndsWithin (· ∈ (Schema.read e).findings) s := ⟨h, fun _ hx => hx⟩
  obtain ⟨_, -, h⟩ := Pass.endsWithin_bind.mp h
  obtain ⟨name, -, h⟩ := Pass.endsWithin_bind.mp h
  obtain ⟨_, -, h⟩ := Pass.endsWithin_bind.mp h
  obtain ⟨id, -, h⟩ := Pass.endsWithin_bind.mp h
  obtain ⟨version, -, h⟩ := Pass.endsWithin_bind.mp h
  obtain ⟨endian, -, h⟩ := Pass.endsWithin_bind.mp h
  obtain ⟨nonUnique, -, h⟩ := Pass.endsWithin_bind.mp h
  obtain ⟨_, hwarn, -⟩ := Pass.endsWithin_bind.mp h
  exact Pass.endsWithin_warnAll.mp hwarn

theorem Built.name_root (h : s.Built) : s.root.name = "" := by
  induction h with
  | read h =>
    rw [(read_eq_ok h).1]
    rfl
  | @add s e _ ih =>
    cases hnamed : s.isNamedBy e with
    | true =>
      rw [(addDocument_of_isNamedBy hnamed).1]
      exact (Population.extends_add _ _ ⟨s.root, s.catalogue⟩ e).name.trans ih
    | false =>
      rw [addDocument_of_not_isNamedBy hnamed]
      exact ih

/-- A document that is added without an error names the schema, and its content is added without
one. -/
theorem content_of_addDocument (hok : (s.addDocument e).ok = true) : s.isNamedBy e = true ∧
    (Population.add ⟨s.version, s.endian⟩ properties ⟨s.root, s.catalogue⟩ e).PartOf
      ⟨⟨(s.addDocument e).schema.root, (s.addDocument e).schema.catalogue⟩,
        (s.addDocument e).findings, (s.addDocument e).ok⟩ := by
  have hnamed : s.isNamedBy e = true := by
    by_contra hnot
    unfold addDocument at hok
    dsimp only at hok
    split_ifs at hok with h
    change ¬ (!s.isNamedBy e) = true at h
    simp [hnot] at h
  refine ⟨hnamed, ?_⟩
  unfold addDocument
  dsimp only
  split_ifs with h
  · change (!s.isNamedBy e) = true at h
    simp [hnamed] at h
  · exact ⟨fun x hx => List.mem_append_right _ hx, fun h => (Bool.and_eq_true_iff.mp h).1⟩

end Schema

namespace Session

variable {s : Session} {schema : Schema} {root : Element} {call : Call}

/-! ### Accepted documents -/

theorem exists_receiver_of_verdict (h : (s.parseElement root).2 = true) :
    ∃ schema, s.receiver? root = some schema ∧ (schema.addDocument root).ok = true := by
  unfold parseElement at h
  unfold receiver?
  split_ifs at h ⊢
  · cases h
  · cases hschema : s.schema with
    | some schema =>
      rw [hschema] at h
      exact ⟨schema, rfl, (Bool.and_eq_true_iff.mp h).1⟩
    | none =>
      rw [hschema] at h
      dsimp only at h ⊢
      cases hread : (Schema.read root).result with
      | error err =>
        rw [hread] at h
        cases h
      | ok schema =>
        rw [hread] at h
        exact ⟨schema, rfl, (Bool.and_eq_true_iff.mp h).1⟩

/-- **A document with a positive verdict** is taken, and all of it is added without an error. -/
theorem exists_taken_of_verdict? (hcall : call.bringsDocument = true)
    (h : s.verdict? call = some true) :
    ∃ schema root, s.taken? call = some (schema, root) ∧ (schema.addDocument root).ok = true := by
  have hnamed {name text : String} (h : (s.parseNamed name text).2 = true) :
      ∃ schema root, Markup.parse text = .ok root ∧ s.receiver? root = some schema ∧
        (schema.addDocument root).ok = true := by
    unfold parseNamed at h
    cases hparse : Markup.parse text with
    | error fault =>
      rw [hparse] at h
      cases h
    | ok root =>
      rw [hparse] at h
      obtain ⟨schema, hreceiver, hok⟩ := exists_receiver_of_verdict h
      exact ⟨schema, root, rfl, hreceiver, hok⟩
  have htaken {schema : Schema} {root : Element} (hroot : call.root? = some root)
      (hreceiver : s.receiver? root = some schema) : s.taken? call = some (schema, root) :=
    taken?_eq_some_iff.mpr ⟨hroot, hreceiver⟩
  cases call with
  | listen | validate => cases hcall
  | element root =>
    obtain ⟨schema, hreceiver, hok⟩ := exists_receiver_of_verdict (Option.some.inj h)
    exact ⟨schema, root, htaken rfl hreceiver, hok⟩
  | named name text =>
    obtain ⟨schema, root, hparse, hreceiver, hok⟩ := hnamed (Option.some.inj h)
    exact ⟨schema, root, htaken (toOption_eq_some.mpr hparse) hreceiver, hok⟩
  | file path content =>
    cases content with
    | error fault => cases h
    | ok text =>
      obtain ⟨schema, root, hparse, hreceiver, hok⟩ := hnamed (Option.some.inj h)
      exact ⟨schema, root, htaken (toOption_eq_some.mpr hparse) hreceiver, hok⟩

/-- The finding is among what a call reports. -/
def ToldIn (s later : Session) (x : Finding) : Prop :=
  (x.line, x.message) ∈ (reported s later).map told

theorem toldIn_perform (h : s.taken? call = some (schema, root)) {x : Finding}
    (hx : x ∈ s.readFindings root ++ (schema.addDocument root).findings) :
    ToldIn s (s.perform call) x := by
  obtain ⟨source, hreported⟩ := reported_perform h
  unfold ToldIn
  rw [hreported, List.map_map]
  exact List.mem_map.mpr ⟨x, hx, told_entry _ x⟩

/-- What a session reports when a document is added to a schema: what is left over in the root, in
each namespace, and at each stop that reading comes to in the turn of a declaration. The properties
of the root are those of the first document only. -/
structure ReportsLeftovers (s later : Session) (schema : Schema) (root : Element) : Prop where
  first : s.schema = none →
    Warned (s.ToldIn later) (strangeProperties "schema" Schema.properties root)
  children : Warned (s.ToldIn later) (childLeftovers Schema.properties ["platforms"] root)
  namespaces : ∀ n, Relation.TransGen Element.HasNamespace root n →
    Warned (s.ToldIn later) (strangeProperties "ns" Namespace.properties n ++
      childLeftovers Namespace.properties [] n)
  declarations : ∀ n, Relation.ReflTransGen Element.HasNamespace root n →
    ∀ kind, ∀ d ∈ Population.own kind n, ∃ t ∈ schema.turns root, t.kind = kind ∧ t.element = d ∧
      ∀ stop, Relation.ReflTransGen t.context.Leads ⟨kind.place, d⟩ stop →
        ∃ e, t.context.ReadsAs stop e ∧ Warned (s.ToldIn later)
          (stop.place.leftovers stop.element ++ stop.place.leftovers e)

theorem warned_first (hnone : s.schema = none) (h : s.taken? call = some (schema, root)) :
    Warned (s.ToldIn (s.perform call)) (strangeProperties "schema" Schema.properties root) := by
  obtain ⟨-, hreceiver⟩ := taken?_eq_some_iff.mp h
  have hvalidated := validated_of_receiver? hreceiver
  have hread : (Schema.read root).result = .ok schema := by
    rw [receiver?_of_validated hvalidated, hnone] at hreceiver
    exact toOption_eq_some.mp hreceiver
  have hfindings : s.readFindings root = (Schema.read root).findings := by
    unfold readFindings
    rw [hvalidated, hnone]
    rfl
  intro w hw
  refine toldIn_perform h (List.mem_append_left _ ?_)
  rw [hfindings]
  exact Schema.warned_read hread w hw

theorem reportsLeftovers_perform (hs : s.Reachable) (h : s.taken? call = some (schema, root))
    (hok : (schema.addDocument root).ok = true) :
    s.ReportsLeftovers (s.perform call) schema root := by
  obtain ⟨hnamed, hpart⟩ := Schema.content_of_addDocument hok
  have hadd := hpart.ok hok
  have hreported {ws : List (Nat × Warning)} (hws : Warned (· ∈ (Population.add
      ⟨schema.version, schema.endian⟩ Schema.properties ⟨schema.root, schema.catalogue⟩
        root).findings) ws) : Warned (s.ToldIn (s.perform call)) ws :=
    fun w hw => toldIn_perform h (List.mem_append_right _ (hpart.findings _ (hws w hw)))
  refine ⟨fun hnone => warned_first hnone h, ?_, fun n hn => ?_, fun n hn kind d hd => ?_⟩
  · have hname : schema.root.name = "" := (built_of_receiver? hs (taken?_eq_some_iff.mp h).2).name_root
    have hroot := Population.warned_add ⟨schema.version, schema.endian⟩ Schema.properties
      ⟨schema.root, schema.catalogue⟩ root
    rw [hname] at hroot
    exact hreported hroot
  · obtain ⟨r, name, hvisit, hne, hname⟩ := Population.exists_visit hadd hn
    have hchildren := Population.warned_add ⟨schema.version, schema.endian⟩
      Namespace.properties r n
    rw [if_neg (by simpa using hne)] at hchildren
    refine hreported (List.forall_mem_append.mpr ⟨Population.warned_readName hname, ?_⟩)
    exact fun w hw => hvisit.part.findings _ (hchildren w hw)
  · have htakes : (Population.add ⟨schema.version, schema.endian⟩ Schema.properties
        ⟨schema.root, schema.catalogue⟩ root).Takes (schema.turns root) kind d := by
      rw [Schema.turns, if_pos hnamed]
      rcases Relation.reflTransGen_iff_eq_or_transGen.mp hn with rfl | hn
      · exact Population.takes_add _ _ _ hd
      · obtain ⟨r, name, hvisit, -⟩ := Population.exists_visit hadd hn
        exact hvisit.takes hd
    obtain ⟨t, ht, hkind, helement, hstops⟩ := htakes.warned hadd
    refine ⟨t, ht, hkind, helement, fun stop hstop => ?_⟩
    obtain ⟨e, hreads, hwarned⟩ := hstops stop hstop
    exact ⟨e, hreads, hreported hwarned⟩

/-! ### Strangers -/

/-- Nothing in a document that is added to a schema is passed over in silence: a later document has
no unknown property, a wrapper of declarations has no stranger in it, and a stop that reading comes
to passes over nothing. -/
structure NothingSilent (s : Session) (schema : Schema) (root : Element) : Prop where
  later : s.schema ≠ none → strangeProperties "schema" Schema.properties root = []
  wrappers : ∀ n, Relation.ReflTransGen Element.HasNamespace root n → ∀ kind : DeclarationKind,
    ∀ w ∈ n.childrenNamed kind.wrapper, kind.wrapperStrangers w = []
  stops : ∀ t ∈ schema.turns root, ∀ stop,
    Relation.ReflTransGen t.context.Leads ⟨t.kind.place, t.element⟩ stop →
      stop.place.silence stop.element = []

/-- A session reports all that a parent in the document does not understand: the root, a namespace,
a wrapper of declarations, and a stop that reading comes to in the turn of a declaration. -/
structure ReportsStrangers (s later : Session) (schema : Schema) (root : Element) : Prop where
  document : Warned (s.ToldIn later) (strangeProperties "schema" Schema.properties root ++
    childLeftovers Schema.properties ["platforms"] root)
  namespaces : ∀ n, Relation.TransGen Element.HasNamespace root n →
    Warned (s.ToldIn later) (strangeProperties "ns" Namespace.properties n ++
      childLeftovers Namespace.properties [] n)
  wrappers : ∀ n, Relation.ReflTransGen Element.HasNamespace root n → ∀ kind : DeclarationKind,
    ∀ w ∈ n.childrenNamed kind.wrapper, Warned (s.ToldIn later) (kind.wrapperStrangers w)
  declarations : ∀ n, Relation.ReflTransGen Element.HasNamespace root n →
    ∀ kind, ∀ d ∈ Population.own kind n, ∃ t ∈ schema.turns root, t.kind = kind ∧ t.element = d ∧
      ∀ stop, Relation.ReflTransGen t.context.Leads ⟨kind.place, d⟩ stop →
        Warned (s.ToldIn later) (stop.place.strangers stop.element)

/-- **Without silence all strangers are reported.** -/
theorem ReportsLeftovers.reportsStrangers {later : Session}
    (h : s.ReportsLeftovers later schema root) (hsilent : s.NothingSilent schema root) :
    s.ReportsStrangers later schema root := by
  refine ⟨List.forall_mem_append.mpr ⟨?_, h.children⟩, h.namespaces, fun n hn kind w hw => ?_,
    fun n hn kind d hd => ?_⟩
  · by_cases hfirst : s.schema = none
    · exact h.first hfirst
    · rw [hsilent.later hfirst]
      exact fun w hw => absurd hw List.not_mem_nil
  · rw [hsilent.wrappers n hn kind w hw]
    exact fun w hw => absurd hw List.not_mem_nil
  · obtain ⟨t, ht, rfl, rfl, hstops⟩ := h.declarations n hn kind d hd
    refine ⟨t, ht, rfl, rfl, fun stop hstop w hw => ?_⟩
    obtain ⟨e, -, hwarned⟩ := hstops stop hstop
    rcases List.mem_append.mp (stop.place.strangers_subset stop.element hw) with hw | hw
    · exact hwarned w (List.mem_append_left _ hw)
    · rw [hsilent.stops t ht stop hstop] at hw
      exact absurd hw List.not_mem_nil

/-! ### Runs -/

/-- **Strangers in an accepted document are reported**, unless they are passed over in silence. A
document with a positive verdict is added to a schema without an error. Whenever a document is, the
session reports
- the children of the root and of each namespace in it, at any depth, that are no declarations,
  wrappers or properties there, and the properties that a namespace, or the root of the first
  document, does not have;
- for each declaration in the root or in a namespace, directly or in a wrapper, and at each stop that
  reading it comes to (layers of frames, fields of interfaces, messages and layers, their members,
  elements and prefixes at any depth, also in what they reuse): the properties that are unknown to
  an interface, a message, a layer or a field; the children of a field with an unknown name; the
  children of a frame, or of its wrapper, that are neither layers nor properties; and the children
  that are no fields in the wrapper of the fields of an interface or a message, or of members.

This is all that these parents do not understand, if nothing is passed over in silence. -/
theorem leftovers_are_reported (config : Config) (calls : List Call) (call : Call) :
    (call.bringsDocument = true → (after config calls).verdict? call = some true →
      ∃ schema root, (after config calls).taken? call = some (schema, root) ∧
        (schema.addDocument root).ok = true) ∧
    ∀ schema root, (after config calls).taken? call = some (schema, root) →
      (schema.addDocument root).ok = true →
      (after config calls).ReportsLeftovers (after config (calls ++ [call])) schema root ∧
      ((after config calls).NothingSilent schema root →
        (after config calls).ReportsStrangers (after config (calls ++ [call])) schema root) := by
  have hrun : after config (calls ++ [call]) = (after config calls).perform call :=
    run_append _ _ _
  refine ⟨exists_taken_of_verdict?, fun schema root htaken hok => ?_⟩
  have hreports := reportsLeftovers_perform (reachable_after config calls) htaken hok
  rw [hrun]
  exact ⟨hreports, hreports.reportsStrangers⟩

/-! ### Reports and silence -/

/-- A document with declarations. -/
def declaring (declarations : List Element) : Element :=
  ⟨"schema", [("name", "P")], declarations, "", 1⟩

/-- A child of an unknown name. -/
def strayElement : Element := ⟨"bogus", [], [], "", 9⟩

/-- A field with a property that it does not have. -/
def strayMember : Element :=
  ⟨"int", [("name", "a"), ("type", "uint8"), ("bogus", "1")], [], "", 4⟩

/-- A bundle with the field as its member. -/
def strayBundle : Element := ⟨"bundle", [("name", "B")], [strayMember], "", 3⟩

/-- The bundle in a nested namespace. -/
def strayNamespace : Element := ⟨"ns", [("name", "N")], [strayBundle], "", 2⟩

/-- What the first document says about the schema. -/
def blankSchema : Schema := ⟨"P", 0, 0, .little, "", false, [], .root, ⟨.empty, []⟩⟩

theorem nothingSilent_strayNamespace (s : Session) (hs : s.schema = none) :
    s.NothingSilent blankSchema (declaring [strayNamespace]) := by
  refine ⟨fun h => absurd hs h, fun n hn => ?_, fun t ht stop hstop => ?_⟩
  · have hns : n = declaring [strayNamespace] ∨ n = strayNamespace := by
      induction hn with
      | refl => exact Or.inl rfl
      | tail _ hstep ih =>
        obtain ⟨hmem, htag⟩ := hstep
        rcases ih with rfl | rfl
        · exact Or.inr (List.mem_singleton.mp hmem)
        · obtain rfl := List.mem_singleton.mp hmem
          exact absurd htag (by decide)
    intro kind w hw
    rcases hns with rfl | rfl <;> cases kind <;> exact absurd hw List.not_mem_nil
  · have hturns : (blankSchema.turns (declaring [strayNamespace])).map
        (fun t => (t.kind, t.element)) = [(.field, strayBundle)] := rfl
    have hturn : (t.kind, t.element) = (.field, strayBundle) :=
      List.mem_singleton.mp (hturns ▸ List.mem_map_of_mem ht)
    obtain ⟨hkind, helement⟩ := Prod.mk.inj hturn
    rw [hkind, helement] at hstop
    have hstops : stop = ⟨.field, strayBundle⟩ ∨ stop = ⟨.field, strayMember⟩ := by
      induction hstop with
      | refl => exact Or.inl rfl
      | tail _ hleads ih =>
        obtain ⟨e, hreads, hmem⟩ := hleads
        rcases ih with rfl | rfl
        · obtain rfl : strayBundle = e := Except.ok.inj hreads
          exact Or.inr (List.mem_singleton.mp hmem)
        · obtain rfl : strayMember = e := Except.ok.inj hreads
          exact absurd hmem List.not_mem_nil
    rcases hstops with rfl | rfl <;> rfl

/-- A property of a member of a bundle in a nested namespace is reported, in a document in which
nothing is passed over. -/
theorem report_of_strayMember :
    let s := after ⟨none, 0, none, false⟩ []
    let later := after ⟨none, 0, none, false⟩ [.element (declaring [strayNamespace])]
    s.verdict? (.element (declaring [strayNamespace])) = some true ∧
      s.NothingSilent blankSchema (declaring [strayNamespace]) ∧
      s.ReportsStrangers later blankSchema (declaring [strayNamespace]) ∧
      s.ToldIn later ⟨4, .warning (.unknownProperty "int" "bogus")⟩ := by
  intro s later
  have hsilent := nothingSilent_strayNamespace s rfl
  obtain ⟨-, hreports⟩ := leftovers_are_reported ⟨none, 0, none, false⟩ []
    (.element (declaring [strayNamespace]))
  have hstrangers := (hreports blankSchema _ rfl (by decide +kernel)).2 hsilent
  have hns : Relation.ReflTransGen Element.HasNamespace (declaring [strayNamespace])
      strayNamespace := .single ⟨List.mem_singleton_self _, rfl⟩
  obtain ⟨t, -, -, -, hstops⟩ := hstrangers.declarations strayNamespace hns
    .field strayBundle (List.mem_singleton_self _)
  have hmember : t.context.Leads ⟨.field, strayBundle⟩ ⟨.field, strayMember⟩ :=
    ⟨strayBundle, rfl, List.mem_singleton_self _⟩
  exact ⟨by decide +kernel, hsilent, hstrangers, hstops _ (.single hmember)
    (4, .unknownProperty "int" "bogus") (List.mem_singleton_self _)⟩

/-- The verdict on a last document after some others, and what is reported then. -/
def outcome (before : List Element) (last : Element) : Option Bool × List (Nat × String) :=
  let s := after ⟨none, 0, none, false⟩ (before.map .element)
  (s.verdict? (.element last), (reported s (s.perform (.element last))).map told)

/-- A payload. -/
def payloadElement (children : List Element) : Element :=
  ⟨"payload", [("name", "p")], children, "", 3⟩

/-- A message with a stray child. -/
def strayMessage : Element := ⟨"message", [("name", "M"), ("id", "1")], [strayElement], "", 2⟩

/-- Documents in which something is left over. -/
def silentDocuments : List Element :=
  [
    -- a child of a message, of an interface and of a layer
    declaring [strayMessage],
    declaring [⟨"interface", [("name", "I")], [strayElement], "", 2⟩],
    declaring [⟨"frame", [("name", "F")], [payloadElement [strayElement]], "", 2⟩],
    -- a child and a property of a wrapper
    declaring [⟨"messages", [], [strayElement], "", 2⟩],
    declaring [⟨"fields", [("bogus", "1")], [], "", 2⟩],
    -- a property of a frame
    declaring [⟨"frame", [("name", "F"), ("bogus", "1")], [payloadElement []], "", 2⟩],
    -- a child of a field that has the name of a property, but is none
    declaring [⟨"int", [("name", "A"), ("type", "uint8")],
      [⟨"units", [], [strayElement], "", 3⟩], "", 2⟩]]

/-- **Some of what is left over is not reported.** Each of these documents is accepted without a word,
and so is a second document whose root has an unknown property, which is reported in a first one. So
the child of a message is not reported. -/
theorem leftovers_without_report :
    (∀ d ∈ silentDocuments, outcome [] d = (some true, [])) ∧
    outcome [declaring []] ⟨"schema", [("name", "P"), ("bogus", "1")], [], "", 1⟩ =
      (some true, []) ∧
    outcome [] ⟨"schema", [("name", "P"), ("bogus", "1")], [], "", 1⟩ =
      (some true, [(1, "<schema>: unknown property \"bogus\"")]) ∧
    ¬ (after ⟨none, 0, none, false⟩ []).ReportsStrangers
      (after ⟨none, 0, none, false⟩ [.element (declaring [strayMessage])]) blankSchema
      (declaring [strayMessage]) := by
  have hsilent : ∀ d ∈ silentDocuments, outcome [] d = (some true, []) := by decide +kernel
  refine ⟨hsilent, by decide +kernel, by decide +kernel, fun h => ?_⟩
  obtain ⟨t, -, -, -, hstops⟩ := h.declarations _ .refl .message strayMessage
    (List.mem_singleton_self _)
  have htold : (9, Warning.message (.unexpectedChild "message" "bogus")) ∈
      (outcome [] (declaring [strayMessage])).2 :=
    hstops _ .refl (9, .unexpectedChild "message" "bogus") (List.mem_singleton_self _)
  rw [hsilent _ List.mem_cons_self] at htold
  exact absurd htold List.not_mem_nil

end Session

end WireSchema
