import Mathlib.Data.List.Basic
import WireSchema.Literal.Name

/-! # Names and paths: laws

A path is known by its segments (`segments_injective`). A name is its only segment, and a name after
a path and a dot is one segment more (`segments_qualify`). What a text is cut into at its last
separator makes up the text, and there is no separator in the last part (`cutLast_eq_some`). -/

namespace WireSchema

/-! ### Pieces -/

namespace Text

theorem pieces_of_not_mem {sep : Char} {cs : List Char} (h : sep ∉ cs) : pieces sep cs = [cs] := by
  induction cs with
  | nil => rfl
  | cons c cs ih =>
    rw [List.mem_cons, not_or] at h
    have hc : ¬ (c == sep) = true := fun e => h.1 (beq_iff_eq.mp e).symm
    rw [pieces, if_neg hc, ih h.2]

theorem pieces_append (sep : Char) (a b : List Char) :
    pieces sep (a ++ sep :: b) = pieces sep a ++ pieces sep b := by
  induction a with
  | nil => simp [pieces]
  | cons c a ih =>
    rw [List.cons_append, pieces, pieces, ih]
    split_ifs
    · rfl
    · cases h : pieces sep a with
      | nil => exact absurd h (pieces_ne_nil sep a)
      | cons p ps => rfl

theorem intercalate_pieces (sep : Char) (cs : List Char) :
    [sep].intercalate (pieces sep cs) = cs := by
  induction cs with
  | nil => rfl
  | cons c cs ih =>
    rw [pieces]
    split_ifs with hc
    · rw [List.intercalate_cons_of_ne_nil (pieces_ne_nil sep cs), ih]
      simp [beq_iff_eq.mp hc]
    · cases h : pieces sep cs with
      | nil => exact absurd h (pieces_ne_nil sep cs)
      | cons p ps =>
        rw [h] at ih
        cases ps with
        | nil => simpa using ih
        | cons q ps =>
          rw [List.intercalate_cons_of_ne_nil (List.cons_ne_nil _ _)] at ih ⊢
          rw [← ih]
          rfl

/-! ### Cutting at the last separator -/

variable {sep : Char} {a b cs : List Char}

theorem cut_append (h : sep ∉ a) : cut sep (a ++ sep :: b) = some (a, b) := by
  induction a with
  | nil => simp [cut]
  | cons c a ih =>
    rw [List.mem_cons, not_or] at h
    have hc : (c == sep) = false := by simpa using Ne.symm h.1
    rw [List.cons_append, cut, hc, ih h.2]
    rfl

theorem cut_eq_none (h : sep ∉ cs) : cut sep cs = none := by
  cases hcut : cut sep cs with
  | none => rfl
  | some p =>
    obtain ⟨heq, -⟩ := cut_eq_some hcut
    exact absurd (heq ▸ List.mem_append_right _ List.mem_cons_self) h

theorem cutLast_append (h : sep ∉ b) : cutLast sep (a ++ sep :: b) = some (a, b) := by
  have hrev : (a ++ sep :: b).reverse = b.reverse ++ sep :: a.reverse := by simp
  rw [cutLast, hrev, cut_append (by simpa using h)]
  simp

theorem cutLast_eq_none (h : sep ∉ cs) : cutLast sep cs = none := by
  rw [cutLast, cut_eq_none (by simpa using h)]
  rfl

theorem cutLast_eq_some (h : cutLast sep cs = some (a, b)) : cs = a ++ sep :: b ∧ sep ∉ b := by
  obtain ⟨p, hp, heq⟩ := Option.map_eq_some_iff.mp h
  obtain ⟨hcs, hnot⟩ := cut_eq_some hp
  obtain ⟨rfl, rfl⟩ := Prod.mk.inj heq
  refine ⟨?_, by simpa using hnot⟩
  rw [← List.reverse_reverse cs, hcs]
  simp

/-- What a text is cut into at its last separator. -/
theorem cutLastString_eq_some {s first last : String}
    (h : cutLastString '.' s = some (first, last)) : s = s!"{first}.{last}" ∧ '.' ∉ last.toList := by
  obtain ⟨p, hp, heq⟩ := Option.map_eq_some_iff.mp h
  obtain ⟨hs, hnot⟩ := cutLast_eq_some hp
  obtain ⟨rfl, rfl⟩ := Prod.mk.inj heq
  refine ⟨?_, by simpa using hnot⟩
  rw [← String.toList_inj, hs]
  simp [toString]

end Text

/-! ### Segments -/

/-- The path of a name in a namespace, whose own path is `scope`. -/
def qualify (scope name : String) : String :=
  if scope.isEmpty then name else s!"{scope}.{name}"

namespace Literal

theorem segments_injective {p q : String} (h : segments p = segments q) : p = q := by
  unfold segments Text.pieceStrings at h
  have hmap := congrArg (List.map String.toList) h
  simp only [List.map_map, Function.comp_def, String.toList_ofList, List.map_id'] at hmap
  have hlist := congrArg (['.'].intercalate ·) hmap
  simp only [Text.intercalate_pieces] at hlist
  exact String.toList_inj.mp hlist

theorem not_mem_of_isNameText {cs : List Char} (h : isNameText cs = true) : '.' ∉ cs := by
  cases cs with
  | nil => simp
  | cons c cs =>
    simp only [isNameText, Bool.and_eq_true, List.all_eq_true] at h
    intro hmem
    rcases List.mem_cons.mp hmem with hmem | hmem
    · rw [← hmem] at h
      exact absurd h.1 (by decide)
    · exact absurd (h.2 _ hmem) (by decide)

theorem segments_of_isName {name : String} (h : isName name = true) : segments name = [name] := by
  unfold segments Text.pieceStrings
  rw [Text.pieces_of_not_mem (not_mem_of_isNameText h)]
  simp

theorem ne_empty_of_isName {name : String} (h : isName name = true) : name ≠ "" := by
  rintro rfl
  exact absurd h (by decide)

/-- The segments of the path of a namespace; the root has none. -/
def scopeSegments (scope : String) : List String := if scope.isEmpty then [] else segments scope

theorem segments_qualify {scope name : String} (h : isName name = true) :
    segments (qualify scope name) = scopeSegments scope ++ [name] := by
  unfold qualify scopeSegments
  split_ifs
  · exact segments_of_isName h
  · rw [← segments_of_isName h]
    unfold segments Text.pieceStrings
    rw [← List.map_append, ← Text.pieces_append]
    simp [toString]

theorem isEmpty_qualify {scope name : String} (h : isName name = true) :
    (qualify scope name).isEmpty = false := by
  unfold qualify
  split_ifs
  · rw [Bool.eq_false_iff, ne_eq, String.isEmpty_iff]
    exact ne_empty_of_isName h
  · simp [toString]

theorem scopeSegments_qualify {scope name : String} (h : isName name = true) :
    scopeSegments (qualify scope name) = scopeSegments scope ++ [name] := by
  rw [← segments_qualify h]
  conv_lhs => unfold scopeSegments
  rw [isEmpty_qualify h]
  rfl

end Literal

end WireSchema
