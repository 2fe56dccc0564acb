import WireSchema.Proofs.Field.Depth
import WireSchema.Proofs.Finding.Unending

/-! # Declarations without end

Reading a declaration comes to an end unless reading an element inside of it does not
(`endsUnless_readMerged`). The levels of `Context.depth` being enough, such an element is not read
with any number of levels (`Context.EndlessIn`). -/

namespace WireSchema

open Markup

/-- **Reading a declaration comes to an end** unless reading an element inside of it does not. -/
theorem endsUnless_readMerged {P : Prop} {ctx : Context} {nested : NestedReader} {pos : Position}
    {e : Element}
    (h : ∀ pos c, pos.topLevel = false → e.Inner c → (nested pos c).EndsUnless P) :
    (readMerged ctx nested pos e).EndsUnless P := by
  have hinside (w : Window) : nested.RelatedInside (fun _ p _ => p.EndsUnless P) nested w e :=
    fun pos c _ htop hc => h pos c htop hc
  exact (Pass.endsUnless_law P).related_readMerged fun _ core _ _ => hinside core.window

/-! ### Elements that are not read with any number of levels -/

/-- Some element that reading a part of `owner` can come to is not read with any number of
levels. -/
def Context.EndlessIn (ctx : Context) (owner : Element) : Prop :=
  ∃ pos, ∃ c ∈ ctx.known owner, ∀ levels, (readField ctx levels pos c).result = .error .endless

variable {ctx : Context} {owner c merged : Element} {pos : Position}

theorem unmarked_readField (ctx : Context) (levels : Nat) (pos : Position) (c : Element) :
    (readField ctx levels pos c).EndsUnless True := by
  induction levels generalizing pos c with
  | zero => exact Pass.endsUnless_endless trivial
  | succ levels ih =>
    unfold readField
    refine Pass.endsUnless_liftM_bind fun merged => ?_
    exact endsUnless_readMerged fun pos c _ _ => ih pos c

theorem endsUnless_readField_depth (hc : c ∈ ctx.known owner) (htop : pos.topLevel = false) :
    (readField ctx (ctx.depth owner) pos c).EndsUnless (ctx.EndlessIn owner) where
  blame h := ⟨pos, c, hc, (readField_depth_eq_endless hc htop).mp h⟩
  unmarked := (unmarked_readField ctx _ pos c).unmarked

theorem endsUnless_readInside (hc : owner.Inner c) (htop : pos.topLevel = false) :
    (readInside ctx owner pos c).EndsUnless (ctx.EndlessIn owner) :=
  endsUnless_readField_depth (List.mem_append_left _ hc.mem_parts) htop

theorem endsUnless_readFields (wrapper name : String) (htop : pos.topLevel = false) :
    (readFields (readInside ctx owner) pos wrapper name owner).EndsUnless
      (ctx.EndlessIn owner) := by
  have hinside : (readInside ctx owner).RelatedInside
      (fun _ p _ => p.EndsUnless (ctx.EndlessIn owner)) (readInside ctx owner) pos.parent owner :=
    fun _ _ _ htop hc => endsUnless_readInside hc htop
  exact (Pass.endsUnless_law _).related_readFields wrapper name htop hinside

end WireSchema
