import WireSchema.Proofs.Finding.Yield
import WireSchema.Proofs.Namespace.Paths
import WireSchema.Proofs.Namespace.Upkeep

/-! # Declarations in their order

In a *tidy* namespace the interfaces, messages and frames are in the order of their names, and have
the paths of their names. What an element adds to a population leaves all of its namespaces tidy
(`upkeep_tidy`). -/

namespace WireSchema

open Markup

/-! ### What is read -/

section
variable {ctx : Context} {e : Element}

theorem Interface.titled_of_read : (Interface.read ctx e).Yields fun i => i.name ≠ "" →
    Literal.isName i.name = true ∧ i.externalRef = qualify ctx.scope i.name := by
  unfold Interface.read
  refine Pass.yields_bind fun name => ?_
  refine (Pass.yields_require _ _).bind fun _ hname => ?_
  refine Pass.yields_bind fun _ => Pass.yields_bind fun _ => Pass.yields_bind fun _ => ?_
  refine Pass.yields_pure fun hne => ?_
  have hempty : name.isEmpty = false := by
    rw [Bool.eq_false_iff, ne_eq, String.isEmpty_iff]
    exact hne
  rw [hempty, Bool.false_or] at hname
  refine ⟨hname, ?_⟩
  rw [hempty]
  rfl

theorem Message.titled_of_read : (Message.read ctx e).Yields fun m =>
    Literal.isName m.name = true ∧ m.externalRef = qualify ctx.scope m.name := by
  unfold Message.read
  refine Pass.yields_bind fun name => ?_
  refine (Pass.yields_liftM fun _ h => checkName_eq_ok.mp h).bind fun _ hname => ?_
  refine Pass.yields_bind fun _ => Pass.yields_bind fun _ => Pass.yields_bind fun _ => ?_
  refine Pass.yields_bind fun _ => Pass.yields_bind fun _ => Pass.yields_bind fun _ => ?_
  refine Pass.yields_bind fun _ => Pass.yields_bind fun _ => Pass.yields_bind fun _ => ?_
  exact Pass.yields_pure ⟨hname, rfl⟩

theorem Frame.titled_of_read : (Frame.read ctx e).Yields fun f =>
    Literal.isName f.name = true ∧ f.externalRef = qualify ctx.scope f.name := by
  unfold Frame.read
  refine Pass.yields_bind fun name => ?_
  refine (Pass.yields_liftM fun _ h => checkName_eq_ok.mp h).bind fun _ hname => ?_
  refine Pass.yields_bind fun _ => Pass.yields_bind fun _ => Pass.yields_bind fun _ => ?_
  split
  · exact Pass.yields_bind fun _ => Pass.yields_pure ⟨hname, rfl⟩
  · exact Pass.yields_pure ⟨hname, rfl⟩

end

/-! ### Tidy namespaces -/

namespace Namespace

/-- The interfaces, messages and frames are in order, and have the right paths; only an interface
may have no name. -/
structure Tidy (ns : Namespace) : Prop where
  interfaces : Filed Interface.name Interface.externalRef ns.externalRef ns.interfaces
  messages : Filed Message.name Message.externalRef ns.externalRef ns.messages
  frames : Filed Frame.name Frame.externalRef ns.externalRef ns.frames
  message : ∀ m ∈ ns.messages, m.name ≠ ""
  frame : ∀ f ∈ ns.frames, f.name ≠ ""

variable {ns ns' : Namespace}

theorem Tidy.congr (h : ns.Tidy) (he : ns'.externalRef = ns.externalRef)
    (hi : ns'.interfaces = ns.interfaces) (hm : ns'.messages = ns.messages)
    (hf : ns'.frames = ns.frames) : ns'.Tidy := by
  refine ⟨?_, ?_, ?_, ?_, ?_⟩
  · rw [hi, he]; exact h.interfaces
  · rw [hm, he]; exact h.messages
  · rw [hf, he]; exact h.frames
  · rw [hm]; exact h.message
  · rw [hf]; exact h.frame

theorem filed_nil {α : Type} {name path : α → String} {scope : String} :
    Filed name path scope [] :=
  ⟨List.Pairwise.nil, fun _ hx => absurd hx List.not_mem_nil⟩

theorem tidy_empty (name externalRef : String) : (empty name externalRef).Tidy :=
  ⟨filed_nil, filed_nil, filed_nil, fun _ hm => absurd hm List.not_mem_nil,
    fun _ hf => absurd hf List.not_mem_nil⟩

/-- **No declaration that is read makes a namespace untidy.** -/
theorem upkeep_tidy (version : Nat) : Upkeep version Tidy where
  congr := Tidy.congr
  empty := tidy_empty
  interface h hscope _ hread hinsert := by
    have htitle := Interface.titled_of_read _ hread
    rw [hscope] at htitle
    exact ⟨h.interfaces.insertNamed htitle hinsert, h.messages, h.frames, h.message, h.frame⟩
  message h hscope _ hread hinsert := by
    have htitle := Message.titled_of_read _ hread
    rw [hscope] at htitle
    exact ⟨h.interfaces, h.messages.insertNamed (fun _ => htitle) hinsert, h.frames,
      forall_of_insertNamed hinsert (Literal.ne_empty_of_isName htitle.1) h.message, h.frame⟩
  frame h hscope _ hread hinsert := by
    have htitle := Frame.titled_of_read _ hread
    rw [hscope] at htitle
    exact ⟨h.interfaces, h.messages, h.frames.insertNamed (fun _ => htitle) hinsert, h.message,
      forall_of_insertNamed hinsert (Literal.ne_empty_of_isName htitle.1) h.frame⟩

end Namespace

end WireSchema
