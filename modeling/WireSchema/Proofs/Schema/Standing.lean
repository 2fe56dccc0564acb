import WireSchema.Field.Validation
import WireSchema.Namespace.Validation
import WireSchema.Proofs.Namespace.Paths
import WireSchema.Proofs.Schema.Binding

/-! # Where fields stand

What a field may name is decided by where it stands: a field of a namespace, of a message or of an
interface beside the others there, a member beside the other members, and the field of a layer or of
a list alone (`Schema.Stands`). Every field of a schema stands somewhere
(`contains_iff_exists_stands`). -/

namespace WireSchema

open Relation

theorem mem_of_siblingsIn {fs : List Field} {name : String} {f : Field}
    (h : siblingsIn fs name = some f) : f ∈ fs :=
  List.mem_of_find?_eq_some h

/-- The field is one of the namespace itself, and stands among the siblings. -/
inductive Namespace.Lists (a : Arena) (n : Namespace) : Field → Siblings → Prop
  | own {p : String × FieldId} {f : Field} (hp : p ∈ n.fields) (hf : a.get? p.2 = some f) :
    Lists a n f (siblings a n.fields)
  | message {m : Message} {f : Field} (hm : m ∈ n.messages) (hf : f ∈ m.fields) :
    Lists a n f (siblingsIn m.fields)
  | interface {i : Interface} {f : Field} (hi : i ∈ n.interfaces) (hf : f ∈ i.fields) :
    Lists a n f (siblingsIn i.fields)
  | layer {fr : Frame} {l : Layer} {f : Field} (hfr : fr ∈ n.frames) (hl : l ∈ fr.layers)
    (hf : l.field = some (.inline f)) : Lists a n f noSiblings

namespace Schema

variable {s : Schema} {f g : Field} {siblings : Siblings} {n : Namespace}

/-- The field is one of the schema, at any depth, and stands among the siblings. -/
inductive Stands (s : Schema) : Field → Siblings → Prop
  | declared {n : Namespace} {f : Field} {siblings : Siblings} (hn : n.Within s.root)
    (hf : n.Lists s.arena f siblings) : Stands s f siblings
  | inside {f g : Field} {siblings : Siblings} (hf : Stands s f siblings) (hg : g ∈ f.inner) :
    Stands s g (siblingsIn f.members)

theorem hasField_of_lists (hn : n.Within s.root) (h : n.Lists s.arena f siblings) :
    s.HasField f := by
  cases h with
  | @own p _ hp hf => exact Or.inl ⟨p.2, hf⟩
  | @message m _ hm hf => exact Or.inr ⟨n, hn, Or.inl ⟨m, hm, hf⟩⟩
  | @interface i _ hi hf => exact Or.inr ⟨n, hn, Or.inr (Or.inl ⟨i, hi, hf⟩)⟩
  | @layer fr l _ hfr hl hf => exact Or.inr ⟨n, hn, Or.inr (Or.inr ⟨fr, hfr, l, hl, hf⟩)⟩

theorem exists_lists_of_hasField (hs : s.Indexed) (h : s.HasField f) :
    ∃ n : Namespace, n.Within s.root ∧ ∃ siblings, n.Lists s.arena f siblings := by
  rcases h with ⟨i, hf⟩ | ⟨n, hn, ⟨m, hm, hf⟩ | ⟨i, hi, hf⟩ | ⟨fr, hfr, l, hl, hf⟩⟩
  · -- some namespace lists the place of the field
    have hi : i ∈ s.root.allFields :=
      hs.listed.mem_iff.mpr (List.mem_range.mpr (Arena.lt_size_of_get? hf))
    obtain ⟨n, hn, hlist⟩ := Namespace.mem_allFields_iff.mp hi
    obtain ⟨p, hp, rfl⟩ := List.mem_map.mp hlist
    exact ⟨n, hn, _, .own hp hf⟩
  · exact ⟨n, hn, _, .message hm hf⟩
  · exact ⟨n, hn, _, .interface hi hf⟩
  · exact ⟨n, hn, _, .layer hfr hl hf⟩

theorem Contains.inner (h : s.Contains f) (hg : g ∈ f.inner) : s.Contains g := by
  obtain ⟨top, htop, hf⟩ := h
  exact ⟨top, htop, ReflTransGen.tail hf hg⟩

theorem Stands.contains (h : s.Stands f siblings) : s.Contains f := by
  induction h with
  | declared hn hf => exact ⟨_, hasField_of_lists hn hf, ReflTransGen.refl⟩
  | inside _ hg ih => exact ih.inner hg

/-- **Every field of a schema stands among some siblings**, if only among none. -/
theorem contains_iff_exists_stands (hs : s.Indexed) :
    s.Contains f ↔ ∃ siblings, s.Stands f siblings := by
  constructor
  · rintro ⟨top, htop, hwithin⟩
    induction hwithin with
    | refl =>
      obtain ⟨n, hn, siblings, hf⟩ := exists_lists_of_hasField hs htop
      exact ⟨siblings, .declared hn hf⟩
    | tail _ hg ih =>
      obtain ⟨siblings, hf⟩ := ih
      exact ⟨_, .inside hf hg⟩
  · rintro ⟨siblings, hf⟩
    exact hf.contains

/-- **Siblings are fields of the schema as well.** -/
theorem Stands.sibling (h : s.Stands f siblings) {name : String} (hg : siblings name = some g) :
    s.Contains g := by
  cases h with
  | @inside f' _ _ hf _ =>
    exact hf.contains.inner (f'.members_subset_inner (mem_of_siblingsIn hg))
  | @declared n _ _ hn hf =>
    cases hf with
    | own hp hf =>
      obtain ⟨p, -, hg⟩ := Option.bind_eq_some_iff.mp hg
      exact ⟨g, Or.inl ⟨p.2, hg⟩, ReflTransGen.refl⟩
    | message hm hf =>
      exact ⟨g, hasField_of_lists hn (.message hm (mem_of_siblingsIn hg)), ReflTransGen.refl⟩
    | interface hi hf =>
      exact ⟨g, hasField_of_lists hn (.interface hi (mem_of_siblingsIn hg)), ReflTransGen.refl⟩
    | layer hfr hl hf => cases hg

end Schema

end WireSchema
