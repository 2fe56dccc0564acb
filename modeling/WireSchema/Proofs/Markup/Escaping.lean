import Mathlib.Data.List.DropRight
import WireSchema.Markup.Entity
import WireSchema.Markup.Printer
import WireSchema.Proofs.Literal.Digits

/-! # Values and texts as they are written

What is printed for a value or a text stands for it (`Writes`), and holds no character that would
end it (`plain_of_mem_printValue`, `ne_of_mem_printText`). No blanks are taken off a text that is
printed, as it has none at its ends (`trim_printText`). -/

namespace WireSchema

/-! ### Blanks at the ends -/

namespace Text

/-- There are no blanks at the ends. -/
structure Framed (cs : List Char) : Prop where
  first : ∀ c ∈ cs.head?, isBlank c = false
  last : ∀ c ∈ cs.getLast?, isBlank c = false

theorem framed_nil : Framed [] := ⟨by simp, by simp⟩

theorem Framed.append {xs ys : List Char} (hx : Framed xs) (hy : Framed ys) :
    Framed (xs ++ ys) := by
  refine ⟨fun c hc => ?_, fun c hc => ?_⟩
  · rw [List.head?_append, Option.mem_def, Option.or_eq_some_iff] at hc
    exact hc.elim (hx.first c) fun hc => hy.first c hc.2
  · rw [List.getLast?_append, Option.mem_def, Option.or_eq_some_iff] at hc
    exact hc.elim (hy.last c) fun hc => hx.last c hc.2

theorem Framed.flatMap {f : Char → List Char} (h : ∀ c, Framed (f c)) (cs : List Char) :
    Framed (cs.flatMap f) := by
  induction cs with
  | nil => exact framed_nil
  | cons c cs ih => exact (h c).append ih

/-- Only blanks at the ends are taken off. -/
theorem Framed.trim_eq {cs : List Char} (h : Framed cs) : trim cs = cs := by
  have hstart {cs : List Char} (h : ∀ c ∈ cs.head?, isBlank c = false) : trimStart cs = cs := by
    cases cs with
    | nil => rfl
    | cons c cs => exact trimStart_cons_of_not_blank (h c rfl)
  have hlast : ∀ c ∈ cs.reverse.head?, isBlank c = false := by
    rw [List.head?_reverse]
    exact h.last
  rw [trim, hstart h.first, trimEnd, hstart hlast, List.reverse_reverse]

/-- Blanks around a text are taken off. -/
theorem Framed.trim_between {cs before after : List Char} (h : Framed cs) (hne : cs ≠ [])
    (hbefore : ∀ c ∈ before, isBlank c = true) (hafter : ∀ c ∈ after, isBlank c = true) :
    trim (before ++ (cs ++ after)) = cs := by
  have hstart {blanks rest : List Char} (hblanks : ∀ c ∈ blanks, isBlank c = true)
      (hrest : ∀ c ∈ rest.head?, isBlank c = false) : trimStart (blanks ++ rest) = rest := by
    rw [trimStart, List.dropWhile_append_of_pos hblanks]
    cases rest with
    | nil => rfl
    | cons c rest => exact trimStart_cons_of_not_blank (hrest c rfl)
  have hfirst : ∀ c ∈ (cs ++ after).head?, isBlank c = false := by
    rw [List.head?_append_of_ne_nil _ hne]
    exact h.first
  have hlast : ∀ c ∈ cs.reverse.head?, isBlank c = false := by
    rw [List.head?_reverse]
    exact h.last
  rw [trim, hstart hbefore hfirst, trimEnd, List.reverse_append,
    hstart (fun c hc => hafter c (List.mem_reverse.mp hc)) hlast, List.reverse_reverse]

theorem framed_trim (cs : List Char) : Framed (trimEnd (cs.dropWhile isBlank)) := by
  have hhead (cs : List Char) : ∀ c ∈ (cs.dropWhile isBlank).head?, isBlank c = false :=
    fun c hc => by
      have hnot := List.head?_dropWhile_not isBlank cs
      rwa [hc] at hnot
  refine ⟨fun c hc => ?_, fun c hc => ?_⟩
  · obtain ⟨ys, hys⟩ := List.rdropWhile_prefix isBlank (cs.dropWhile isBlank)
    refine hhead cs c ?_
    rw [← hys, List.head?_append, Option.mem_def, Option.or_eq_some_iff]
    exact Or.inl hc
  · refine hhead (cs.dropWhile isBlank).reverse c ?_
    rw [← List.getLast?_reverse]
    exact hc

end Text

namespace Markup

variable {written written' cs cs' : List Char}

/-! ### What is written stands for something -/

/-- The written characters stand for `cs`, whatever follows. -/
def Writes (written cs : List Char) : Prop :=
  ∀ whole rest, decodeFrom whole none (written ++ rest) =
    (decodeFrom whole none rest).map (cs ++ ·)

theorem Writes.nil : Writes [] [] := fun whole rest => by
  rw [List.nil_append]
  cases decodeFrom whole none rest <;> rfl

theorem Writes.append (h : Writes written cs) (h' : Writes written' cs') :
    Writes (written ++ written') (cs ++ cs') := fun whole rest => by
  rw [List.append_assoc, h, h']
  cases decodeFrom whole none rest with
  | error fault => rfl
  | ok ds => exact congrArg Except.ok (List.append_assoc cs cs' ds).symm

theorem Writes.flatMap {f : Char → List Char} (h : ∀ c, Writes (f c) [c]) (cs : List Char) :
    Writes (cs.flatMap f) cs := by
  induction cs with
  | nil => exact .nil
  | cons c cs ih => exact (h c).append ih

theorem Writes.decode_eq (h : Writes written cs) : decode written = .ok cs := by
  have hwhole := h written []
  rw [List.append_nil] at hwhole
  rw [decode, hwhole, decodeFrom]
  exact congrArg Except.ok (List.append_nil cs)

theorem writes_self {c : Char} (hc : c ≠ '&') : Writes [c] [c] := fun whole rest => by
  rw [List.singleton_append, decodeFrom, if_neg (by simpa using hc)]
  rfl

theorem decodeFrom_pending {name : List Char} (hname : ';' ∉ name)
    (whole pending rest : List Char) : decodeFrom whole (some pending) (name ++ ';' :: rest) =
      decodeFrom whole (some (name.reverse ++ pending)) (';' :: rest) := by
  induction name generalizing pending with
  | nil => rfl
  | cons x name ih =>
    rw [List.mem_cons, not_or] at hname
    have hx : ¬ (x == ';') = true := by simpa using Ne.symm hname.1
    rw [List.cons_append, decodeFrom, if_neg hx, ih hname.2, List.reverse_cons, List.append_assoc]
    rfl

/-- A reference stands for a character if its name does. -/
theorem writes_reference (name : List Char) {c : Char} (hname : ';' ∉ name)
    (hc : entity? name = some c) : Writes ('&' :: (name ++ [';'])) [c] := fun whole rest => by
  have hstart : ('&' :: (name ++ [';'])) ++ rest = '&' :: (name ++ ';' :: rest) := by simp
  rw [hstart, decodeFrom, if_pos (by rfl), decodeFrom_pending hname, decodeFrom, if_pos (by rfl),
    List.append_nil, List.reverse_reverse, hc]
  rfl

theorem writes_numericReference (c : Char) : Writes (numericReference c) [c] := by
  have hdigit : ∀ d ∈ Nat.toDigits 10 c.toNat, d.isDigit = true := fun d hd =>
    Nat.isDigit_of_mem_toDigits (by decide) (by decide) hd
  have hentity : entity? ('#' :: Nat.toDigits 10 c.toNat) = some c := by
    have hnatural : (Literal.natural? 10 (Nat.toDigits 10 c.toNat)).bind scalar? = some c := by
      have hvalid : c.toNat.isValidChar := c.valid
      rw [Literal.natural?_toDigits, Option.bind_some, scalar?, dif_pos hvalid]
      rfl
    unfold entity?
    split
    · next h =>
      obtain ⟨-, h⟩ := List.cons_eq_cons.mp h
      exact absurd (hdigit 'x' (h ▸ List.mem_cons_self)) (by decide)
    · next h =>
      obtain ⟨-, h⟩ := List.cons_eq_cons.mp h
      exact absurd (hdigit 'X' (h ▸ List.mem_cons_self)) (by decide)
    · next h =>
      obtain ⟨-, h⟩ := List.cons_eq_cons.mp h
      rw [← h]
      exact hnatural
    · next hnot => exact absurd rfl (hnot _)
  have hname : ';' ∉ '#' :: Nat.toDigits 10 c.toNat := by
    rw [List.mem_cons, not_or]
    exact ⟨by decide, fun hmem => absurd (hdigit ';' hmem) (by decide)⟩
  exact writes_reference _ hname hentity

theorem writes_printChar (c : Char) : Writes (printChar c) [c] := by
  unfold printChar
  split_ifs with hamp hlt hgt hquot
  · rw [beq_iff_eq.mp hamp]
    exact writes_reference "amp".toList (by decide) (by decide)
  · rw [beq_iff_eq.mp hlt]
    exact writes_reference "lt".toList (by decide) (by decide)
  · rw [beq_iff_eq.mp hgt]
    exact writes_reference "gt".toList (by decide) (by decide)
  · rw [beq_iff_eq.mp hquot]
    exact writes_reference "quot".toList (by decide) (by decide)
  · exact writes_self (by simpa using hamp)

/-- **What is printed for a value stands for it.** -/
theorem decode_printValue (cs : List Char) : decode (printValue cs) = .ok cs :=
  (Writes.flatMap writes_printChar cs).decode_eq

theorem writes_printText (cs : List Char) : Writes (printText cs) cs := by
  let inner := Text.trimEnd (cs.dropWhile Text.isBlank)
  obtain ⟨trailing, htrailing⟩ := List.rdropWhile_prefix Text.isBlank (cs.dropWhile Text.isBlank)
  have hinner : inner ++ (cs.dropWhile Text.isBlank).drop inner.length =
      cs.dropWhile Text.isBlank := by
    have hrest : inner ++ trailing = cs.dropWhile Text.isBlank := htrailing
    rw [← hrest, List.drop_left]
  have hparts : cs.takeWhile Text.isBlank ++ inner ++
      (cs.dropWhile Text.isBlank).drop inner.length = cs := by
    rw [List.append_assoc, hinner, List.takeWhile_append_dropWhile]
  have hwrites := ((Writes.flatMap writes_numericReference (cs.takeWhile Text.isBlank)).append
    (Writes.flatMap writes_printChar inner)).append
      (Writes.flatMap writes_numericReference ((cs.dropWhile Text.isBlank).drop inner.length))
  rw [hparts] at hwrites
  exact hwrites

/-! ### No blanks at the ends -/

/-- A reference has no blanks at its ends. -/
theorem framed_reference (name : List Char) : Text.Framed ('&' :: (name ++ [';'])) := by
  refine ⟨fun x hx => ?_, fun x hx => ?_⟩
  · obtain rfl : '&' = x := by simpa using hx
    rfl
  · obtain rfl : ';' = x := by
      rw [← List.cons_append, List.getLast?_append_of_ne_nil _ (by simp)] at hx
      simpa using hx
    rfl

theorem framed_numericReference (c : Char) : Text.Framed (numericReference c) :=
  framed_reference ('#' :: Nat.toDigits 10 c.toNat)

theorem framed_printChar {c : Char} (hc : Text.isBlank c = false) : Text.Framed (printChar c) := by
  unfold printChar
  split_ifs
  · exact framed_reference "amp".toList
  · exact framed_reference "lt".toList
  · exact framed_reference "gt".toList
  · exact framed_reference "quot".toList
  · exact ⟨by simpa using hc, by simpa using hc⟩

theorem framed_printValue (h : Text.Framed cs) : Text.Framed (printValue cs) := by
  have hne (c : Char) : printChar c ≠ [] := by
    unfold printChar
    split_ifs <;> simp
  refine ⟨fun x hx => ?_, fun x hx => ?_⟩
  · cases cs with
    | nil => exact absurd hx (by simp [printValue])
    | cons c cs =>
      have hc := framed_printChar (h.first c rfl)
      refine hc.first x ?_
      rw [printValue, List.flatMap_cons, List.head?_append_of_ne_nil _ (hne c)] at hx
      exact hx
  · rcases cs.eq_nil_or_concat with rfl | ⟨cs, c, rfl⟩
    · exact absurd hx (by simp [printValue])
    · have hc := framed_printChar (h.last c (by simp))
      refine hc.last x ?_
      rw [printValue, List.concat_eq_append, List.flatMap_append, List.flatMap_singleton,
        List.getLast?_append_of_ne_nil _ (hne c)] at hx
      exact hx

/-- **A text that is printed has no blanks at its ends.** -/
theorem trim_printText (cs : List Char) : Text.trim (printText cs) = printText cs := by
  have hleading := Text.Framed.flatMap framed_numericReference (cs.takeWhile Text.isBlank)
  have hinner := framed_printValue (Text.framed_trim cs)
  exact ((hleading.append hinner).append (Text.Framed.flatMap framed_numericReference _)).trim_eq

/-- **What is printed for a text stands for it.** -/
theorem decode_trim_printText (cs : List Char) : decode (Text.trim (printText cs)) = .ok cs := by
  rw [trim_printText]
  exact (writes_printText cs).decode_eq

/-! ### No marks -/

theorem plain_of_mem_printValue {c : Char} (h : c ∈ printValue cs) : c ≠ '"' ∧ c ≠ '<' := by
  obtain ⟨x, -, hx⟩ := List.mem_flatMap.mp h
  have hplain : (printChar x).all (fun c => c != '"' && c != '<') = true := by
    unfold printChar
    split_ifs with hamp hlt hgt hquot
    · rfl
    · rfl
    · rfl
    · rfl
    · rw [List.all_cons, bne, bne, Bool.eq_false_iff.mpr hlt, Bool.eq_false_iff.mpr hquot]
      rfl
  simpa using List.all_eq_true.mp hplain c hx

theorem ne_of_mem_printText {c : Char} (h : c ∈ printText cs) : c ≠ '<' := by
  have hreference {x : Char} (h : c ∈ numericReference x) : c ≠ '<' := by
    rintro rfl
    unfold numericReference at h
    rw [List.mem_append, List.mem_append] at h
    rcases h with (h | h) | h
    · exact absurd h (by decide)
    · have hdigit := Nat.isDigit_of_mem_toDigits (by decide) (by decide) h
      cases hdigit
    · exact absurd h (by decide)
  unfold printText at h
  rw [List.mem_append, List.mem_append] at h
  rcases h with (h | h) | h
  · obtain ⟨x, -, hx⟩ := List.mem_flatMap.mp h
    exact hreference hx
  · exact (plain_of_mem_printValue h).2
  · obtain ⟨x, -, hx⟩ := List.mem_flatMap.mp h
    exact hreference hx

theorem printText_eq_nil_iff : printText cs = [] ↔ cs = [] := by
  refine ⟨fun h => ?_, fun h => by rw [h]; rfl⟩
  have hwrites := (writes_printText cs).decode_eq
  rw [h] at hwrites
  exact (Except.ok.inj hwrites).symm

end Markup

end WireSchema
