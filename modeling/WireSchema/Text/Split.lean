/-! # Cutting a text at a separator

`cut` splits at the first separator, `cutLast` at the last one, and `pieces` at all of them. The
part before the first separator holds none, and the parts joined by it are the text (`cut_eq_some`).
-/

namespace WireSchema.Text

/-- The parts before and after the first `sep`, if there is one. -/
def cut (sep : Char) : List Char → Option (List Char × List Char)
  | [] => none
  | c :: cs => if c == sep then some ([], cs) else (cut sep cs).map fun p => (c :: p.1, p.2)

/-- The parts before and after the last `sep`, if there is one. -/
def cutLast (sep : Char) (cs : List Char) : Option (List Char × List Char) :=
  (cut sep cs.reverse).map fun p => (p.2.reverse, p.1.reverse)

/-- The parts between the separators: one more than there are separators. -/
def pieces (sep : Char) : List Char → List (List Char)
  | [] => [[]]
  | c :: cs =>
    if c == sep then [] :: pieces sep cs
    else match pieces sep cs with
      | [] => [[c]]
      | p :: ps => (c :: p) :: ps

/-- `cut` on strings. -/
def cutString (sep : Char) (s : String) : Option (String × String) :=
  (cut sep s.toList).map fun p => (String.ofList p.1, String.ofList p.2)

/-- `cutLast` on strings. -/
def cutLastString (sep : Char) (s : String) : Option (String × String) :=
  (cutLast sep s.toList).map fun p => (String.ofList p.1, String.ofList p.2)

/-- `pieces` on strings. -/
def pieceStrings (sep : Char) (s : String) : List String := (pieces sep s.toList).map String.ofList

theorem cut_eq_some {sep : Char} {cs a b : List Char} (h : cut sep cs = some (a, b)) :
    cs = a ++ sep :: b ∧ sep ∉ a := by
  induction cs generalizing a with
  | nil => simp [cut] at h
  | cons c cs ih =>
    by_cases hc : c = sep
    · simp only [cut, hc, beq_self_eq_true, if_true, Option.some.injEq, Prod.mk.injEq] at h
      obtain ⟨rfl, rfl⟩ := h
      simp [hc]
    · simp only [cut, beq_iff_eq, hc, if_false, Option.map_eq_some_iff, Prod.exists,
        Prod.mk.injEq] at h
      obtain ⟨a', b', h', rfl, rfl⟩ := h
      obtain ⟨rfl, hn⟩ := ih h'
      exact ⟨rfl, by simp [hn, Ne.symm hc]⟩

theorem pieces_ne_nil (sep : Char) (cs : List Char) : pieces sep cs ≠ [] := by
  cases cs with
  | nil => simp [pieces]
  | cons c cs =>
    simp only [pieces]
    split
    · simp
    · split <;> simp

end WireSchema.Text
