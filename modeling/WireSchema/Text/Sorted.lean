/-! # Lists in the order of names

A list is kept in the order of the names of its items, byte by byte, and no name occurs twice.
`insertNamed` refuses a name that is there already; `putNamed` replaces its item.
-/

namespace WireSchema

variable {α : Type}

/-- The list with one more item, unless it has an item of that name. -/
def insertNamed (name : α → String) (x : α) : List α → Option (List α)
  | [] => some [x]
  | y :: ys =>
    if name x < name y then some (x :: y :: ys)
    else if name x == name y then none
    else (insertNamed name x ys).map (y :: ·)

/-- The list with the item in the place of the one of that name, or one more item. -/
def putNamed (name : α → String) (x : α) : List α → List α
  | [] => [x]
  | y :: ys =>
    if name x < name y then x :: y :: ys
    else if name x == name y then x :: ys
    else y :: putNamed name x ys

/-- The item with the name. -/
def findNamed? (name : α → String) (key : String) (xs : List α) : Option α :=
  xs.find? fun x => name x == key

theorem mem_of_insertNamed {name : α → String} {x : α} {xs ys : List α}
    (h : insertNamed name x xs = some ys) (z : α) : z ∈ ys ↔ z = x ∨ z ∈ xs := by
  induction xs generalizing ys with
  | nil =>
    simp only [insertNamed, Option.some.injEq] at h
    subst h
    simp
  | cons y xs ih =>
    simp only [insertNamed] at h
    split at h
    · simp only [Option.some.injEq] at h
      subst h
      simp
    · split at h
      · simp at h
      · simp only [Option.map_eq_some_iff] at h
        obtain ⟨zs, h, rfl⟩ := h
        simp only [List.mem_cons, ih h]
        constructor <;> rintro (h | h | h) <;> simp [h]

end WireSchema
