import WireSchema.Proofs.Field.ReuseFree
import WireSchema.Proofs.Namespace.Extension
import WireSchema.Proofs.Namespace.Tidiness

/-! # What a namespace declares

Fields, interfaces, messages and frames are declared in the same way: a declaration is read, and
enters the list of its kind unless its name is taken there (`outcome_add`). `Population.entries` are
the declarations of one kind in the namespace that names lead to, with the fields of the arena in
the place of their numbers. -/

namespace WireSchema

open Markup

/-! ### Kinds of declarations -/

/-- What a namespace declares besides further namespaces. -/
inductive DeclarationKind
  | field | interface | message | frame
  deriving DecidableEq

/-- A declaration as it is read. -/
inductive Declaration
  | field (f : Field)
  | interface (i : Interface)
  | message (m : Message)
  | frame (f : Frame)

/-- The name of a declaration. -/
def Declaration.name : Declaration → String
  | .field f => f.name
  | .interface i => i.name
  | .message m => m.name
  | .frame f => f.name

namespace DeclarationKind

/-- The kinds in the order in which an element is gone through. -/
def all : List DeclarationKind := [.field, .interface, .message, .frame]

theorem mem_all (kind : DeclarationKind) : kind ∈ all := by
  cases kind <;> decide

/-- The tag of the children that wrap declarations of the kind. -/
def wrapper : DeclarationKind → String
  | .field => "fields"
  | .interface => "interfaces"
  | .message => "messages"
  | .frame => "frames"

/-- The tag declares something of the kind. -/
def accepts : DeclarationKind → String → Bool
  | .field => isFieldTag
  | .interface => (· == "interface")
  | .message => (· == "message")
  | .frame => (· == "frame")

/-- The kind as messages name it. -/
def noun : DeclarationKind → Noun
  | .field => .field
  | .interface => .interface
  | .message => .message
  | .frame => .frame

/-- Reads a declaration of the kind. -/
def read (ctx : Context) (e : Element) : DeclarationKind → Pass Declaration
  | .field => do
    let merged ← ctx.merge e
    .field <$> readMerged ctx (readInside ctx e) .inNamespace merged
  | .interface => .interface <$> Interface.read ctx e
  | .message => .message <$> Message.read ctx e
  | .frame => .frame <$> Frame.read ctx e

/-- Adds a declaration of the kind. -/
def add (setting : Setting) (p : Population) (e : Element) : DeclarationKind → Pass Population
  | .field => Population.addField setting p e
  | .interface => Population.addInterface setting p e
  | .message => Population.addMessage setting p e
  | .frame => Population.addFrame setting p e

/-- Why a declaration whose name is taken in the namespace is refused. -/
def refusal (scope : String) (kind : DeclarationKind) (d : Declaration) : SchemaError :=
  match kind with
  | .interface =>
    if d.name.isEmpty then .invalid scope .severalDefaultInterfaces
    else .duplicateName .interface d.name
  | kind => .duplicateName kind.noun d.name

/-- **Without reuse a declaration is read as without bases.** -/
theorem sameValue_read {ctx : Context} {e : Element} {kind : DeclarationKind}
    (bases : List (String × Element)) (he : e.ReuseFree) (htag : kind.accepts e.tag = true) :
    SameValue (kind.read ctx e).result (kind.read { ctx with bases } e).result := by
  cases kind with
  | field =>
    have hread (ctx : Context) : (DeclarationKind.field.read ctx e).result =
        (Declaration.field <$> readMerged ctx (readInside ctx e) .inNamespace e).result :=
      Pass.result_bind_of_ok _
        (Pass.result_liftM_eq_ok.mpr (Context.merge_of_reuseFree he htag))
    rw [hread, hread]
    exact (sameValue_readMerged bases he _).passMap _
  | interface => exact (Interface.sameValue_read bases he).passMap _
  | message => exact (Message.sameValue_read bases he).passMap _
  | frame => exact (Frame.sameValue_read bases he).passMap _

end DeclarationKind

theorem Growth.Law.declaration {setting : Setting} {Q : Population → Growth → Prop}
    (h : Growth.Law setting Q) (kind : DeclarationKind) (p : Population) (e : Element) :
    Q p (.ofPass p e.line (kind.add setting p e)) := by
  cases kind with
  | field => exact h.field p e
  | interface => exact h.interface p e
  | message => exact h.message p e
  | frame => exact h.frame p e

/-! ### Entries -/

/-- A declaration under its name. -/
abbrev Entry := String × Option Declaration

namespace Namespace

/-- The declarations of the kind, with the fields of the arena. -/
def entries (a : Arena) (ns : Namespace) : DeclarationKind → List Entry
  | .field => ns.fields.map fun x => (x.1, (a.get? x.2).map .field)
  | .interface => ns.interfaces.map fun i => (i.name, some (.interface i))
  | .message => ns.messages.map fun m => (m.name, some (.message m))
  | .frame => ns.frames.map fun f => (f.name, some (.frame f))

/-- The namespace that names lead to. -/
def named? (ns : Namespace) : List String → Option Namespace
  | [] => some ns
  | name :: names => (ns.child? name).bind (·.named? names)

variable {a b : Arena} {ns ns' : Namespace}

/-- What is added to the arena makes no difference to the entries. -/
theorem entries_mono (ho : ns.Orderly a) (hab : ∀ i f, a.get? i = some f → b.get? i = some f)
    (kind : DeclarationKind) : ns.entries b kind = ns.entries a kind := by
  cases kind with
  | field =>
    refine List.map_congr_left fun x hx => ?_
    obtain ⟨-, f, hf, -⟩ := ho.field x hx
    rw [hf, hab _ _ hf]
  | interface | message | frame => rfl

theorem named?_of_namespaces (h : ns'.namespaces = ns.namespaces) (name : String)
    (names : List String) : ns'.named? (name :: names) = ns.named? (name :: names) := by
  rw [named?, named?, child?, child?, h]

theorem within_of_named? {n : Namespace} {names : List String} (h : ns.named? names = some n) :
    n.Within ns := by
  induction names generalizing ns with
  | nil =>
    cases h
    exact Relation.ReflTransGen.refl
  | cons name names ih =>
    obtain ⟨c, hc, h⟩ := Option.bind_eq_some_iff.mp h
    exact Relation.ReflTransGen.head (List.mem_of_find?_eq_some hc) (ih h)

end Namespace

namespace Population

variable {setting : Setting} {p q : Population} {e : Element}

/-- The namespaces are orderly and tidy. -/
structure Arranged (p : Population) : Prop where
  orderly : p.scope.AllOrderly p.catalogue.arena
  tidy : p.scope.Everywhere Namespace.Tidy

theorem Arranged.extend (hp : p.Arranged) (h : Extends p q) (htidy : Keeps Namespace.Tidy p q) :
    q.Arranged :=
  ⟨h.orderly hp.orderly, htidy hp.tidy⟩

theorem arranged_nested (setting : Setting) (hp : p.Arranged) (name description : String) :
    (⟨{ p.nested setting name with description }, p.catalogue⟩ : Population).Arranged := by
  have hupkeep := Namespace.upkeep_tidy setting.version
  have horderly : (p.nested setting name).AllOrderly p.catalogue.arena :=
    allOrderly_nested hp.orderly
  refine ⟨?_, ?_⟩
  · refine horderly.congr ?_ ?_ ?_ <;> rfl
  · exact (everywhere_nested hupkeep hp.tidy).of_own rfl fun hown => hown.congr rfl rfl rfl rfl

/-- The declarations of the kind in the namespace itself. -/
def ownEntries (p : Population) (kind : DeclarationKind) : List Entry :=
  p.scope.entries p.catalogue.arena kind

/-- `q` is `p` with the declaration in its namespace. -/
structure Placed (kind : DeclarationKind) (d : Declaration) (p q : Population) : Prop where
  own : insertNamed Prod.fst (d.name, some d) (p.ownEntries kind) = some (q.ownEntries kind)
  others : ∀ k, k ≠ kind → q.ownEntries k = p.ownEntries k
  namespaces : q.scope.namespaces = p.scope.namespaces
  description : q.scope.description = p.scope.description

/-- What becomes of a declaration: it cannot be read, its name is taken, or it is placed. -/
inductive Outcome (p : Population) (kind : DeclarationKind) :
    Except Failure Declaration → Except Failure Population → Prop
  | unread (failure failure' : Failure) : Outcome p kind (.error failure) (.error failure')
  | refused {d : Declaration}
    (h : insertNamed Prod.fst (d.name, some d) (p.ownEntries kind) = none) :
    Outcome p kind (.ok d) (.error (.error (kind.refusal p.scope.externalRef d)))
  | placed {d : Declaration} {q : Population} (h : Placed kind d p q) :
    Outcome p kind (.ok d) (.ok q)

namespace Outcome

variable {α : Type} {kind : DeclarationKind}

/-- What is read for both of them comes first. -/
theorem bind {pass : Pass α} {f : α → Pass Declaration} {g : α → Pass Population}
    (h : ∀ a, Outcome p kind (f a).result (g a).result) :
    Outcome p kind (pass >>= f).result (pass >>= g).result := by
  cases hpass : pass.result with
  | error failure =>
    rw [Pass.result_bind_of_error _ hpass, Pass.result_bind_of_error _ hpass]
    exact .unread failure failure
  | ok a =>
    rw [Pass.result_bind_of_ok _ hpass, Pass.result_bind_of_ok _ hpass]
    exact h a

theorem map {pass : Pass α} {f : α → Declaration} {g : α → Pass Population}
    (h : ∀ a, Outcome p kind (.ok (f a)) (g a).result) :
    Outcome p kind (f <$> pass).result (pass >>= g).result := by
  rw [← bind_pure_comp]
  exact bind h

/-- The name decides, once the declaration is read. -/
theorem insert {noun : Noun} {name : α → String} {x : α} {items : List α} {entry : α → Entry}
    {d : Declaration} {after : List α → Population} (hname : ∀ x, (entry x).1 = name x)
    (hd : entry x = (d.name, some d)) (hown : p.ownEntries kind = items.map entry)
    (hrefusal : insertNamed name x items = none →
      .duplicateName noun (name x) = kind.refusal p.scope.externalRef d)
    (hafter : ∀ ys, (after ys).ownEntries kind = ys.map entry)
    (hothers : ∀ ys k, k ≠ kind → (after ys).ownEntries k = p.ownEntries k)
    (hnamespaces : ∀ ys, (after ys).scope.namespaces = p.scope.namespaces)
    (hdescription : ∀ ys, (after ys).scope.description = p.scope.description) :
    Outcome p kind (.ok d) (Population.insert noun name x items >>= fun ys =>
      pure (after ys)).result := by
  have hinsert : insertNamed Prod.fst (d.name, some d) (p.ownEntries kind) =
      (insertNamed name x items).map (List.map entry) := by
    rw [← hd, hown, insertNamed_map Prod.fst entry hname]
  cases h : insertNamed name x items with
  | none =>
    have hfail : (Population.insert noun name x items).result =
        .error (.error (.duplicateName noun (name x))) := by
      unfold Population.insert
      rw [h]
      rfl
    rw [Pass.result_bind_of_error _ hfail, hrefusal h]
    exact .refused (by rw [hinsert, h]; rfl)
  | some ys =>
    rw [Pass.result_bind_of_ok _ (insert_eq_ok.mpr h)]
    refine .placed ⟨?_, hothers ys, hnamespaces ys, hdescription ys⟩
    rw [hinsert, h, hafter]
    rfl

end Outcome

theorem outcome_field (hp : p.Arranged) : Outcome p .field
    (DeclarationKind.field.read (p.context setting) e).result (addField setting p e).result := by
  have hown := (Namespace.allOrderly_iff.mp hp.orderly).1
  refine Outcome.bind fun merged => Outcome.map fun field => ?_
  -- the field takes the next place of the arena, so that the other fields stand where they were
  have hpush : ∀ i f, p.catalogue.arena.get? i = some f →
      (p.catalogue.arena.push field).get? i = some f := by
    intro i f hf
    rw [Arena.get?_push, if_neg (Nat.ne_of_lt (Arena.lt_size_of_get? hf))]
    exact hf
  have hentries := p.scope.entries_mono hown hpush
  refine Outcome.insert (fun _ => rfl) ?_ (hentries .field).symm (fun _ => rfl) (fun _ => rfl)
    (fun ys k hk => ?_) (fun _ => rfl) fun _ => rfl
  · rw [Arena.get?_push, if_pos rfl]
    rfl
  · cases k with
    | field => exact absurd rfl hk
    | interface | message | frame => rfl

theorem outcome_interface (hp : p.Arranged) : Outcome p .interface
    (DeclarationKind.interface.read (p.context setting) e).result
      (addInterface setting p e).result := by
  have hsorted := ((Namespace.everywhere_iff.mp hp.tidy).1).interfaces.sorted
  refine Outcome.map fun i => ?_
  have hdefault : (i.isDefault && p.scope.hasDefaultInterface) = true ↔
      i.name = "" ∧ insertNamed Interface.name i p.scope.interfaces = none := by
    rw [Bool.and_eq_true, Interface.isDefault, String.isEmpty_iff, insertNamed_eq_none_iff hsorted,
      Namespace.hasDefaultInterface, List.any_eq_true]
    refine and_congr_right fun hi => exists_congr fun j => and_congr_right fun _ => ?_
    rw [Interface.isDefault, String.isEmpty_iff, hi]
  by_cases hrefused : (i.isDefault && p.scope.hasDefaultInterface) = true
  · obtain ⟨hi, hnone⟩ := hdefault.mp hrefused
    have hfail : (Pass.require (!(i.isDefault && p.scope.hasDefaultInterface))
        (.invalid p.scope.externalRef .severalDefaultInterfaces)).result =
        .error (.error
          (DeclarationKind.interface.refusal p.scope.externalRef (.interface i))) := by
      rw [hrefused, DeclarationKind.refusal, Declaration.name, hi]
      rfl
    rw [Pass.result_bind_of_error _ hfail]
    refine .refused ?_
    have hinsert := insertNamed_map Prod.fst
      (fun i : Interface => ((i.name, some (.interface i)) : Entry)) (fun _ => rfl) i
      p.scope.interfaces
    rw [hnone] at hinsert
    exact hinsert
  · have hpass : (Pass.require (!(i.isDefault && p.scope.hasDefaultInterface))
        (.invalid p.scope.externalRef .severalDefaultInterfaces)).result = .ok () := by
      rw [Bool.not_eq_true] at hrefused
      rw [hrefused]
      rfl
    rw [Pass.result_bind_of_ok _ hpass]
    refine Outcome.insert (fun _ => rfl) rfl rfl (fun hnone => ?_) (fun _ => rfl)
      (fun ys k hk => ?_) (fun _ => rfl) fun _ => rfl
    · have hi : i.name.isEmpty = false := by
        rw [Bool.eq_false_iff, ne_eq, String.isEmpty_iff]
        exact fun hi => hrefused (hdefault.mpr ⟨hi, hnone⟩)
      unfold DeclarationKind.refusal Declaration.name
      simp only [hi]
      rfl
    · cases k with
      | interface => exact absurd rfl hk
      | field | message | frame => rfl

/-- **A declaration that is read enters the list of its kind, unless its name is taken there.** -/
theorem outcome_add (setting : Setting) (e : Element) (hp : p.Arranged) (kind : DeclarationKind) :
    Outcome p kind (kind.read (p.context setting) e).result (kind.add setting p e).result := by
  cases kind with
  | field => exact outcome_field hp
  | interface => exact outcome_interface hp
  | message =>
    refine Outcome.map fun m => Outcome.insert (fun _ => rfl) rfl rfl (fun _ => rfl) (fun _ => rfl)
      (fun ys k hk => ?_) (fun _ => rfl) fun _ => rfl
    cases k with
    | message => exact absurd rfl hk
    | field | interface | frame => rfl
  | frame =>
    refine Outcome.map fun f => Outcome.insert (fun _ => rfl) rfl rfl (fun _ => rfl) (fun _ => rfl)
      (fun ys k hk => ?_) (fun _ => rfl) fun _ => rfl
    cases k with
    | frame => exact absurd rfl hk
    | field | interface | message => rfl

end Population

end WireSchema
