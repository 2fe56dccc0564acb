import WireSchema.Proofs.Literal.Octets
import WireSchema.Proofs.Literal.Path

/-! # Digits in literals and references

A text that is decoded consists of plain characters and of references (`decodes_of_decode`), and
each of its references stands for a character (`Decodes.exists_entity?`). The digits of numeric
references are read by the same reader as those of integers and octets. All three take one plus sign
in front of the digits. Without it, there are only digits where they belong
(`digits_after_marks`). -/

namespace WireSchema.Markup

open Literal

variable {cs out name : List Char} {x : Char}

/-! ### References -/

/-- What stands between `&#` and the digits of a reference says their radix. -/
inductive ReferenceMark : List Char → Nat → Prop
  | decimal : ReferenceMark [] 10
  | hexadecimal {x : Char} (h : x = 'x' ∨ x = 'X') : ReferenceMark [x] 16

theorem ReferenceMark.radix_le {mark : List Char} {radix : Nat} (h : ReferenceMark mark radix) :
    radix ≤ 16 := by
  cases h <;> decide

/-- What the name of a numeric reference is made of. -/
theorem exists_of_numericEntity? (h : entity? ('#' :: name) = some x) :
    ∃ mark plus ds radix n, name = mark ++ (plus ++ ds) ∧ ReferenceMark mark radix ∧
      (plus = [] ∨ plus = ['+']) ∧ Numeral radix ds n ∧ scalar? n = some x := by
  have hmarked (mark : List Char) {rest : List Char} {radix : Nat} (hname : name = mark ++ rest)
      (hmark : ReferenceMark mark radix) (hrest : (natural? radix rest).bind scalar? = some x) :
      ∃ mark plus ds radix n, name = mark ++ (plus ++ ds) ∧ ReferenceMark mark radix ∧
        (plus = [] ∨ plus = ['+']) ∧ Numeral radix ds n ∧ scalar? n = some x := by
    obtain ⟨n, hn, hx⟩ := Option.bind_eq_some_iff.mp hrest
    obtain ⟨plus, ds, rfl, hplus, hds⟩ := (natural?_eq_some_iff hmark.radix_le).mp hn
    exact ⟨mark, plus, ds, radix, n, hname, hmark, hplus, hds, hx⟩
  unfold entity? at h
  split at h
  · next hname => exact hmarked _ (List.cons_eq_cons.mp hname).2 (.hexadecimal (Or.inl rfl)) h
  · next hname => exact hmarked _ (List.cons_eq_cons.mp hname).2 (.hexadecimal (Or.inr rfl)) h
  · next hname => exact hmarked [] (List.cons_eq_cons.mp hname).2 .decimal h
  · next hnot => exact absurd rfl (hnot _)

/-- There is no ampersand in the name of a reference. -/
theorem ampersand_not_mem (h : entity? name = some x) : '&' ∉ name := by
  by_cases hnumeric : ∃ digits, name = '#' :: digits
  · obtain ⟨digits, rfl⟩ := hnumeric
    obtain ⟨mark, plus, ds, radix, n, rfl, hmark, hplus, hds, -⟩ := exists_of_numericEntity? h
    have hmark' : '&' ∉ mark := by
      cases hmark with
      | decimal => decide
      | hexadecimal hx => rcases hx with rfl | rfl <;> decide
    have hplus' : '&' ∉ plus := by rcases hplus with rfl | rfl <;> decide
    have hds' : '&' ∉ ds := hds.not_mem hmark.radix_le rfl
    simp [hmark', hplus', hds']
  · unfold entity? at h
    split at h
    · exact absurd ⟨_, rfl⟩ hnumeric
    · exact absurd ⟨_, rfl⟩ hnumeric
    · exact absurd ⟨_, rfl⟩ hnumeric
    · split at h
      all_goals first | cases h; done | skip
      all_goals
        next hname =>
          rw [← String.toList_ofList (l := name), hname]
          decide

/-! ### What is decoded -/

/-- The text stands for `out`: a reference for one character, and other characters for
themselves. -/
inductive Decodes : List Char → List Char → Prop
  | nil : Decodes [] []
  | plain {c : Char} {cs out : List Char} (hc : c ≠ '&') (h : Decodes cs out) :
    Decodes (c :: cs) (c :: out)
  | reference {name cs out : List Char} {x : Char} (hname : ';' ∉ name)
    (hx : entity? name = some x) (h : Decodes cs out) :
    Decodes ('&' :: (name ++ ';' :: cs)) (x :: out)

/-- The text with the reference that has been begun. -/
def resumed (cs : List Char) : Option (List Char) → List Char
  | none => cs
  | some pending => '&' :: (pending.reverse ++ cs)

theorem map_eq_ok {f : List Char → List Char} {r : Except Fault (List Char)}
    (h : r.map f = .ok out) : ∃ rest, r = .ok rest ∧ f rest = out := by
  cases r with
  | error fault => cases h
  | ok rest => exact ⟨rest, rfl, Except.ok.inj h⟩

theorem decodes_of_decodeFrom {whole : List Char} (state : Option (List Char))
    (hstate : ∀ pending ∈ state, ';' ∉ pending) (h : decodeFrom whole state cs = .ok out) :
    Decodes (resumed cs state) out := by
  induction cs generalizing state out with
  | nil =>
    cases state with
    | none =>
      cases h
      exact .nil
    | some pending => cases h
  | cons c cs ih =>
    cases state with
    | none =>
      rw [decodeFrom] at h
      split_ifs at h with hc
      · obtain rfl := beq_iff_eq.mp hc
        exact ih (some []) (by simp) h
      · obtain ⟨rest, hrest, rfl⟩ := map_eq_ok h
        exact .plain (by simpa using hc) (ih none (by simp) hrest)
    | some pending =>
      have hpending : ';' ∉ pending := hstate pending rfl
      rw [decodeFrom] at h
      split_ifs at h with hc
      · obtain rfl := beq_iff_eq.mp hc
        split at h
        · next x hx =>
          obtain ⟨rest, hrest, rfl⟩ := map_eq_ok h
          exact .reference (by simpa using hpending) hx (ih none (by simp) hrest)
        · cases h
      · have hlonger : ';' ∉ c :: pending := by
          rw [List.mem_cons, not_or]
          exact ⟨fun heq => hc (beq_iff_eq.mpr heq.symm), hpending⟩
        have hrest := ih (some (c :: pending)) (by simpa using hlonger) h
        simpa [resumed] using hrest

/-- **What is decoded stands for its value.** -/
theorem decodes_of_decode (h : decode cs = .ok out) : Decodes cs out :=
  decodes_of_decodeFrom none (by simp) h

/-- **Every ampersand begins a reference to a character.** -/
theorem Decodes.exists_entity? (h : Decodes cs out) {before after : List Char}
    (hcs : cs = before ++ '&' :: (name ++ ';' :: after)) (hname : ';' ∉ name) :
    ∃ x, entity? name = some x := by
  induction h generalizing before with
  | nil => simp at hcs
  | plain hc _ ih =>
    cases before with
    | nil => exact absurd (List.cons_eq_cons.mp hcs).1 hc
    | cons b before => exact ih (List.cons_eq_cons.mp hcs).2
  | @reference name' cs' _ x hname' hx _ ih =>
    cases before with
    | nil =>
      have hcut := congrArg (Text.cut ';') (List.cons_eq_cons.mp hcs).2
      rw [Text.cut_append hname', Text.cut_append hname] at hcut
      obtain ⟨rfl, -⟩ := Prod.mk.inj (Option.some.inj hcut)
      exact ⟨x, hx⟩
    | cons b before =>
      -- the other reference begins after this one, whose name has no ampersand
      obtain ⟨-, hrest⟩ := List.cons_eq_cons.mp hcs
      rcases List.append_eq_append_iff.mp hrest with ⟨as, rfl, has⟩ | ⟨bs, rfl, hbs⟩
      · cases as with
        | nil => cases has
        | cons a as => exact ih (List.cons_eq_cons.mp has).2
      · cases bs with
        | nil => cases hbs
        | cons b bs =>
          obtain ⟨rfl, -⟩ := List.cons_eq_cons.mp hbs
          exact absurd (by simp) (ampersand_not_mem hx)

/-! ### Digits -/

/-- Behind at most one sign and the mark of a radix there are only digits of this radix. -/
def DigitsBehindMark (cs : List Char) : Prop :=
  ∃ sign mark ds radix, cs = sign ++ (mark ++ ds) ∧ sign ∈ [[], ['+'], ['-']] ∧ Mark mark radix ∧
    ∀ c ∈ ds, ∃ d, IsDigit radix c d

/-- The name of a numeric reference is a mark and digits of its radix. -/
def DigitsOfReference (name : List Char) : Prop :=
  ∃ mark ds radix, name = mark ++ ds ∧ ReferenceMark mark radix ∧ ds ≠ [] ∧
    ∀ c ∈ ds, ∃ d, IsDigit radix c d

section
variable {mark ds : List Char} {radix : Nat}

/-- A plus sign is no digit. -/
theorem not_isDigit_plus {d : Nat} (hradix : radix ≤ 16) : ¬ IsDigit radix '+' d := by
  intro hd
  have hdigit : digit? radix '+' = none := rfl
  rw [(digit?_eq_some_iff hradix).mpr hd] at hdigit
  cases hdigit

theorem plus_not_mem_of_isDigit (hradix : radix ≤ 16) (h : ∀ c ∈ ds, ∃ d, IsDigit radix c d) :
    '+' ∉ ds := by
  intro hmem
  obtain ⟨d, hd⟩ := h '+' hmem
  exact not_isDigit_plus hradix hd

theorem plus_not_mem_of_mark (h : Mark mark radix) : '+' ∉ mark := by
  cases h with
  | decimal | octal => decide
  | binary hx | hexadecimal hx => rcases hx with rfl | rfl <;> decide

theorem plus_not_mem_of_referenceMark (h : ReferenceMark mark radix) : '+' ∉ mark := by
  cases h with
  | decimal => decide
  | hexadecimal hx => rcases hx with rfl | rfl <;> decide

end

theorem DigitsBehindMark.plus_not_mem (h : DigitsBehindMark cs) : '+' ∉ cs.tail := by
  obtain ⟨sign, mark, ds, radix, rfl, hsign, hmark, hds⟩ := h
  have hbehind : '+' ∉ mark ++ ds := by
    rw [List.mem_append, not_or]
    exact ⟨plus_not_mem_of_mark hmark, plus_not_mem_of_isDigit hmark.radix_le hds⟩
  simp only [List.mem_cons, List.not_mem_nil, or_false] at hsign
  rcases hsign with rfl | rfl | rfl
  · exact fun hmem => hbehind (List.mem_of_mem_tail hmem)
  · exact hbehind
  · exact hbehind

/-- An integer that is read has digits behind its mark, unless a plus sign stands there. -/
theorem digitsBehindMark_of_int? {s : String} {v : Int} (h : int? s = some v)
    (hplus : '+' ∉ (Text.trim s.toList).tail) : DigitsBehindMark (Text.trim s.toList) := by
  obtain ⟨-, sign, mark, plus, ds, radix, n, hs, hsign, h⟩ := exists_of_signed? h
  rw [hs] at hplus ⊢
  have hsigns : sign ∈ [[], ['+'], ['-']] := by
    cases hsign <;> simp
  rcases h.between with rfl | ⟨rfl, hne⟩
  · exact ⟨sign, mark, ds, radix, rfl, hsigns, h.announced, h.numeral.isDigit⟩
  · -- the plus sign is not the first character, for the mark stands in front of it
    obtain ⟨c, rest, rfl⟩ := List.exists_cons_of_ne_nil hne
    refine absurd ?_ hplus
    cases hsign <;> simp

theorem isDigit_of_octets? {s : String} {os : List UInt8} (h : octets? s = some os)
    (hplus : '+' ∉ inked s) : ∀ c ∈ inked s, ∃ d, IsDigit 16 c d := by
  obtain ⟨ps, hs, hos⟩ := octets?_eq_some_iff.mp h
  rw [hs] at hplus ⊢
  clear h hs
  induction hos with
  | nil => exact fun c hc => absurd hc List.not_mem_nil
  | @cons p _ ps _ hp _ ih =>
    obtain ⟨lo, hlo, hfirst⟩ := hp
    rw [List.flatMap_cons, List.mem_append, not_or] at hplus
    obtain ⟨hi, hhi, -⟩ := hfirst.resolve_left fun hfirst => hplus.1 (by simp [hfirst.1])
    rw [List.flatMap_cons]
    refine List.forall_mem_append.mpr ⟨?_, ih hplus.2⟩
    exact List.forall_mem_cons.mpr ⟨⟨hi, hhi⟩, List.forall_mem_singleton.mpr ⟨lo, hlo⟩⟩

theorem DigitsOfReference.plus_not_mem (h : DigitsOfReference name) : '+' ∉ name := by
  obtain ⟨mark, ds, radix, rfl, hmark, -, hds⟩ := h
  rw [List.mem_append, not_or]
  exact ⟨plus_not_mem_of_referenceMark hmark, plus_not_mem_of_isDigit hmark.radix_le hds⟩

theorem digitsOfReference_of_entity? (h : entity? ('#' :: name) = some x) (hplus : '+' ∉ name) :
    DigitsOfReference name := by
  obtain ⟨mark, plus, ds, radix, n, rfl, hmark, rfl | rfl, hds, -⟩ := exists_of_numericEntity? h
  · exact ⟨mark, ds, radix, rfl, hmark, hds.1, hds.isDigit⟩
  · exact absurd (by simp) hplus

/-- **What stands after the mark of a radix.** Of an integer that is read, without the blanks around
it, there are only digits behind a sign and a mark, if and only if no plus sign stands behind its
first character. A text that is read as octets has only hexadecimal digits, if and only if it has no
plus sign. The name of a numeric reference in a text that is decoded is a mark and digits of its
radix, if and only if it has no plus sign. -/
theorem digits_after_marks (s : String) :
    (∀ v, int? s = some v →
      (DigitsBehindMark (Text.trim s.toList) ↔ '+' ∉ (Text.trim s.toList).tail)) ∧
    (∀ os, octets? s = some os → ((∀ c ∈ inked s, ∃ d, IsDigit 16 c d) ↔ '+' ∉ inked s)) ∧
    (∀ out, decode s.toList = .ok out → ∀ before name after,
      s.toList = before ++ '&' :: ('#' :: name ++ ';' :: after) → ';' ∉ name →
        (DigitsOfReference name ↔ '+' ∉ name)) := by
  refine ⟨fun v h => ⟨DigitsBehindMark.plus_not_mem, digitsBehindMark_of_int? h⟩,
    fun os h => ⟨plus_not_mem_of_isDigit (Nat.le_refl 16), isDigit_of_octets? h⟩,
    fun out h before name after hs hname => ⟨DigitsOfReference.plus_not_mem, ?_⟩⟩
  have hname : ';' ∉ '#' :: name := by simpa using hname
  obtain ⟨x, hx⟩ := (decodes_of_decode h).exists_entity? hs hname
  exact digitsOfReference_of_entity? hx

/-- A hexadecimal integer with a sign has only digits behind its mark. -/
theorem digits_of_hexadecimal :
    int? " +0x1F" = some 31 ∧ DigitsBehindMark (Text.trim " +0x1F".toList) := by
  have hread : int? " +0x1F" = some 31 := by decide +kernel
  exact ⟨hread, ((digits_after_marks " +0x1F").1 31 hread).mpr (by decide +kernel)⟩

/-- A plus sign stands among the digits of an integer, of octets and of a reference that are read. -/
theorem plus_among_digits :
    (int? "0x+1F" = some 31 ∧ ¬ DigitsBehindMark (Text.trim "0x+1F".toList)) ∧
    (octets? "+f" = some [15] ∧ ¬ ∀ c ∈ inked "+f", ∃ d, IsDigit 16 c d) ∧
    (decode "&#+65;".toList = .ok ['A'] ∧ ¬ DigitsOfReference ['+', '6', '5']) := by
  refine ⟨⟨by decide +kernel, fun h => ?_⟩, ⟨by decide +kernel, fun h => ?_⟩,
    ⟨by decide +kernel, fun h => ?_⟩⟩
  · exact h.plus_not_mem (by decide +kernel)
  · exact plus_not_mem_of_isDigit (Nat.le_refl 16) h (by decide +kernel)
  · exact h.plus_not_mem (by decide)

end WireSchema.Markup
