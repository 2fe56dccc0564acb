import WireSchema.Proofs.Field.Unending
import WireSchema.Proofs.Namespace.Refusals

/-! # Documents without end

Adding a declaration has no end only if it comes to an element that is not read with any number of
levels (`Turn.endlessIn_of_endless`). What an element adds is marked just where one of its
declarations, in its turn, has no end (`Population.marked_add_iff`). -/

namespace WireSchema

open Markup

/-! ### Declarations -/

section
variable {ctx : Context} {e : Element}

theorem Interface.endsUnless_read : (Interface.read ctx e).EndsUnless (ctx.EndlessIn e) := by
  unfold Interface.read
  refine Pass.endsUnless_liftM_bind fun name => Pass.endsUnless_require_bind fun _ => ?_
  refine (Pass.endsUnless_warnAll _).bind fun _ => ?_
  refine (endsUnless_readFields _ _ rfl).bind fun fields => ?_
  exact Pass.endsUnless_liftM_bind fun _ => Pass.endsUnless_pure _

theorem Message.endsUnless_read : (Message.read ctx e).EndsUnless (ctx.EndlessIn e) := by
  unfold Message.read
  refine Pass.endsUnless_liftM_bind fun name => Pass.endsUnless_liftM_bind fun _ => ?_
  refine Pass.endsUnless_liftM_bind fun idSpec => Pass.endsUnless_require_bind fun _ => ?_
  refine Pass.endsUnless_liftM_bind fun window => Pass.endsUnless_liftM_bind fun _ => ?_
  refine Pass.endsUnless_liftM_bind fun _ => (Pass.endsUnless_warnAll _).bind fun _ => ?_
  refine (endsUnless_readFields _ _ rfl).bind fun fields => ?_
  refine Pass.endsUnless_liftM_bind fun _ => ?_
  exact Pass.endsUnless_liftM_bind fun _ => Pass.endsUnless_pure _

theorem Layer.endsUnless_read : (Layer.read ctx e).EndsUnless (ctx.EndlessIn e) := by
  have hfield (name : String) (named : Option String) :
      (Layer.readField (readInside ctx e) name named e).EndsUnless (ctx.EndlessIn e) := by
    unfold Layer.readField
    split
    · exact Pass.endsUnless_pure _
    · exact Pass.endsUnless_liftM_bind fun _ => Pass.endsUnless_pure _
    · rename_i c hc
      have hinner : e.Inner c := inner_of_mem_fieldsInside (hc ▸ List.mem_singleton_self c)
      exact (endsUnless_readInside hinner rfl).bind fun _ => Pass.endsUnless_pure _
    · exact Pass.endsUnless_fail _
  unfold Layer.read
  refine Pass.endsUnless_liftM_bind fun name => Pass.endsUnless_liftM_bind fun _ => ?_
  refine Pass.endsUnless_liftM_bind fun kind => Pass.endsUnless_liftM_bind fun named => ?_
  refine (hfield name named).bind fun field => Pass.endsUnless_require_bind fun _ => ?_
  refine Pass.endsUnless_require_bind fun _ => (Pass.endsUnless_warnAll _).bind fun _ => ?_
  exact Pass.endsUnless_liftM_bind fun _ => Pass.endsUnless_pure _

theorem Context.EndlessIn.of_part {owner : Element} (h : ctx.EndlessIn e) (he : e ∈ owner.parts) :
    ctx.EndlessIn owner := by
  obtain ⟨pos, c, hc, hend⟩ := h
  refine ⟨pos, c, ?_, hend⟩
  rcases List.mem_append.mp hc with hc | hc
  · exact List.mem_append_left _ (Element.mem_parts_trans he hc)
  · exact List.mem_append_right _ hc

theorem endsUnless_readLayers {P : Prop} {es : List Element}
    (h : ∀ c ∈ es, (Layer.read ctx c).EndsUnless P) : (Frame.readLayers ctx es).EndsUnless P := by
  induction es with
  | nil => exact Pass.endsUnless_pure _
  | cons c es ih =>
    have hrest := ih fun d hd => h d (List.mem_cons_of_mem _ hd)
    unfold Frame.readLayers
    split_ifs
    · refine ((h c List.mem_cons_self).settled c.line).bind fun layer => hrest.bind fun r => ?_
      cases layer <;> exact Pass.endsUnless_pure _
    · exact hrest
    · exact (Pass.endsUnless_warn _ _).bind fun _ => hrest

theorem Frame.endsUnless_read : (Frame.read ctx e).EndsUnless (ctx.EndlessIn e) := by
  have hparts : ∀ c ∈ Frame.declared e, c ∈ e.parts := by
    intro c hc
    obtain ⟨w, hw, hc⟩ := List.mem_flatMap.mp hc
    have hw := Element.mem_parts_of_mem_children (Element.mem_parts_self e) hw
    split_ifs at hc
    · exact Element.mem_parts_of_mem_children hw hc
    · rw [List.mem_singleton.mp hc]
      exact hw
  have hlayers : (Frame.readLayers ctx (Frame.declared e)).EndsUnless (ctx.EndlessIn e) :=
    endsUnless_readLayers fun c hc =>
      Layer.endsUnless_read.imp fun h => h.of_part (hparts c hc)
  unfold Frame.read
  refine Pass.endsUnless_liftM_bind fun name => Pass.endsUnless_liftM_bind fun _ => ?_
  refine hlayers.bind fun r => Pass.endsUnless_require_bind fun _ => ?_
  refine Pass.endsUnless_liftM_bind fun description => ?_
  dsimp only
  split
  · exact (Pass.endsUnless_fail _).bind fun _ => Pass.endsUnless_pure _
  · exact Pass.endsUnless_pure _

/-- **Adding a declaration comes to an end** unless some element that reading it can come to is not
read with any number of levels. -/
theorem DeclarationKind.endsUnless_add (kind : DeclarationKind) (setting : Setting)
    (p : Population) (e : Element) :
    (kind.add setting p e).EndsUnless ((p.context setting).EndlessIn e) := by
  cases kind with
  | field =>
    refine (Pass.endsUnless_liftM _).bindOk fun merged hmerge => ?_
    have hread : (readMerged (p.context setting) (readField (p.context setting)
        ((p.context setting).depth e)) .inNamespace merged).EndsUnless
          ((p.context setting).EndlessIn e) := by
      refine endsUnless_readMerged fun pos c htop hc => endsUnless_readField_depth ?_ htop
      exact (Context.knows_known _ e).inner (List.mem_append_left _ (Element.mem_parts_self e))
        (Pass.result_liftM_eq_ok.mp hmerge) hc
    refine hread.bind fun field => (Pass.endsUnless_ofOption _ _).bind fun _ => ?_
    exact Pass.endsUnless_pure _
  | interface =>
    refine Interface.endsUnless_read.bind fun i => Pass.endsUnless_require_bind fun _ => ?_
    exact (Pass.endsUnless_ofOption _ _).bind fun _ => Pass.endsUnless_pure _
  | message =>
    refine Message.endsUnless_read.bind fun m => ?_
    exact (Pass.endsUnless_ofOption _ _).bind fun _ => Pass.endsUnless_pure _
  | frame =>
    refine Frame.endsUnless_read.bind fun f => ?_
    exact (Pass.endsUnless_ofOption _ _).bind fun _ => Pass.endsUnless_pure _

end

/-! ### Turns -/

/-- Adding the declaration has no end. -/
def Turn.Endless (t : Turn) : Prop :=
  (t.kind.add t.setting t.population t.element).result = .error .endless

/-- **A declaration has no end** only if it comes to an element that is not read with any number of
levels. -/
theorem Turn.endlessIn_of_endless {t : Turn} (h : t.Endless) : t.context.EndlessIn t.element :=
  (t.kind.endsUnless_add t.setting t.population t.element).blame h

/-- What is added is marked just where one of the declarations has no end. -/
def Growth.MarkedBy (ts : List Turn) (g : Growth) : Prop :=
  (∃ x ∈ g.findings, x.isEndless = true) ↔ ∃ t ∈ ts, t.Endless

namespace Growth.MarkedBy

variable {ts us : List Turn} {g : Growth}

theorem warnings (p : Population) (ws : List (Nat × Warning)) : MarkedBy [] (.warnings p ws) := by
  refine iff_of_false ?_ fun ⟨t, ht, _⟩ => absurd ht List.not_mem_nil
  rintro ⟨x, hx, hmark⟩
  obtain ⟨w, -, rfl⟩ := List.mem_map.mp hx
  cases hmark

theorem seq {step : Population → Growth} (hg : MarkedBy ts g)
    (hstep : MarkedBy us (step g.population)) : MarkedBy (ts ++ us) (g.andThen step) := by
  have hfindings : (g.andThen step).findings = g.findings ++ (step g.population).findings := rfl
  unfold MarkedBy at hg hstep ⊢
  simp only [hfindings, List.mem_append, or_and_right, exists_or]
  exact or_congr hg hstep

theorem declaration (setting : Setting) (kind : DeclarationKind) (p : Population) (e : Element) :
    MarkedBy [⟨⟨setting, p, e⟩, [], kind⟩] (.ofPass p e.line (kind.add setting p e)) := by
  have hmark := (kind.endsUnless_add setting p e).exists_mark_iff e.line
  unfold MarkedBy
  simp only [List.mem_singleton, exists_eq_left]
  exact hmark

end Growth.MarkedBy

namespace Population

variable {setting : Setting} {p : Population} {e : Element}

theorem markedBy_forEach (setting : Setting) (kind : DeclarationKind) (p : Population)
    (es : List Element) :
    Growth.MarkedBy (turnsOf setting kind p es) (.forEach (kind.add setting) p es) := by
  induction es generalizing p with
  | nil => exact .warnings p []
  | cons e es ih => exact (Growth.MarkedBy.declaration setting kind p e).seq (ih _)

theorem markedBy_addKinds (setting : Setting) (properties : List String) (e : Element)
    (kinds : List DeclarationKind) (p : Population) :
    Growth.MarkedBy (turnsOfKinds setting e kinds p)
      (addKinds setting properties e kinds p) := by
  induction kinds generalizing p with
  | nil => exact .warnings p _
  | cons kind kinds ih => exact (markedBy_forEach setting kind p _).seq (ih _)

theorem endsUnless_readName : (readName e).EndsUnless False := by
  unfold readName
  refine Pass.endsUnless_liftM_bind fun name => Pass.endsUnless_liftM_bind fun _ => ?_
  exact (Pass.endsUnless_warnAll _).bind fun _ => Pass.endsUnless_pure _

theorem markedBy_addNested {fill : Population → Growth} {ts : Population → List Turn}
    (h : ∀ q, Growth.MarkedBy (ts q) (fill q)) :
    Growth.MarkedBy
      ((entered? setting p e).elim [] fun q => (ts q).map (.within q.scope.name))
      (addNested setting p e fill) := by
  have hhead : ∀ x ∈ (readName e).findings, x.isEndless = false := endsUnless_readName.unmarked
  have hnone {fs : List Finding} (hfs : ∀ x ∈ fs, x.isEndless = false) :
      (∃ x ∈ fs, x.isEndless = true) ↔ ∃ t ∈ ([] : List Turn), t.Endless :=
    iff_of_false (Pass.not_exists_mark hfs) fun ⟨t, ht, _⟩ => absurd ht List.not_mem_nil
  unfold entered? addNested Growth.MarkedBy
  cases hname : (readName e).result with
  | error failure =>
    simp only [hname, Option.elim_none]
    cases failure with
    | error err => exact (Pass.exists_mark_concat_iff _ err).trans (hnone hhead)
    | endless => exact (endsUnless_readName.blame hname).elim
  | ok name =>
    cases hdescription : (e.props Namespace.properties).single "description" with
    | error err =>
      simp only [hname, Option.elim_none]
      exact (Pass.exists_mark_concat_iff _ err).trans (hnone hhead)
    | ok description =>
      have hfill := h ⟨{ p.nested setting name with
        description := description.getD (p.nested setting name).description }, p.catalogue⟩
      have hwithin (ts : List Turn) (name : String) :
          (∃ t ∈ ts.map (Turn.within name), t.Endless) ↔ ∃ t ∈ ts, t.Endless := by
        simp only [List.mem_map, exists_exists_and_eq_and]
        exact Iff.rfl
      simp only [hname, Option.elim_some]
      rw [hwithin]
      refine Iff.trans ?_ hfill
      split_ifs
      · exact Pass.exists_mark_append_iff hhead
      · exact (Pass.exists_mark_concat_iff _ _).trans (Pass.exists_mark_append_iff hhead)

theorem markedBy_addNamespaces {es : List Element}
    (h : ∀ e ∈ es, ∀ properties q,
      Growth.MarkedBy (turns setting q e) (add setting properties q e)) (p : Population) :
    Growth.MarkedBy (nestedTurns setting p es) (addNamespaces setting p es) := by
  induction es generalizing p with
  | nil =>
    rw [nestedTurns, addNamespaces]
    exact .warnings p []
  | cons e es ih =>
    rw [nestedTurns, addNamespaces]
    refine Growth.MarkedBy.seq ?_ (ih (fun c hc => h c (List.mem_cons_of_mem _ hc)) _)
    split_ifs
    · exact markedBy_addNested fun q => h e List.mem_cons_self _ q
    · exact .warnings p []

/-- **What an element adds is marked** just where one of its declarations has no end when its turn
comes. -/
theorem markedBy_add (setting : Setting) (e : Element) (properties : List String)
    (p : Population) : Growth.MarkedBy (turns setting p e) (add setting properties p e) := by
  induction e using Element.nested_induction generalizing properties p with
  | step e ih =>
    obtain ⟨tag, attrs, children, text, line⟩ := e
    rw [turns, add]
    exact (markedBy_addNamespaces (fun c hc properties q => ih c hc properties q) p).seq
      (markedBy_addKinds setting properties _ _ _)

end Population

end WireSchema
