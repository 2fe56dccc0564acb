import Mathlib.Data.List.Forall2
import Mathlib.Data.Nat.Digits.Defs
import WireSchema.Proofs.Literal.Names

/-! # Integers as they are written

An integer is written as a sign, a mark that announces a radix, and digits of that radix. What is
read from such a notation is the integer, if it has less than 128 bits, and nothing otherwise
(`signed?_of_magnitude`). The reader takes no more than this, but for a plus sign between a mark and
its digits (`exists_of_signed?`). -/

namespace WireSchema.Literal

variable {radix n d : Nat} {c : Char} {cs ds : List Char} {v : Int}

/-! ### Digits -/

/-- The character is a digit of the radix, in either case, and has the value. -/
def IsDigit (radix : Nat) (c : Char) (d : Nat) : Prop :=
  d < radix ∧ (c = d.digitChar ∨ c = d.digitChar.toUpper)

instance : Decidable (IsDigit radix c d) := inferInstanceAs (Decidable (_ ∧ _))

/-- A run of digits that writes the number; the last digit is that of the units. -/
def Numeral (radix : Nat) (cs : List Char) (n : Nat) : Prop :=
  cs ≠ [] ∧ ∃ ds, List.Forall₂ (IsDigit radix) cs ds ∧ n = Nat.ofDigits radix ds.reverse

theorem digitValue?_eq_some_iff : digitValue? c = some d ↔ IsDigit 16 c d := by
  constructor
  · intro h
    have hchar : Char.ofNat c.toNat = c := Char.ofNat_toNat c
    unfold digitValue? at h
    split_ifs at h with hdigit hlower hupper
    all_goals obtain rfl := Option.some.inj h
    · have hlo : 48 ≤ c.toNat := hdigit.1
      have hhi : c.toNat ≤ 57 := hdigit.2
      rw [← hchar]
      interval_cases c.toNat <;> decide
    · have hlo : 97 ≤ c.toNat := hlower.1
      have hhi : c.toNat ≤ 102 := hlower.2
      rw [← hchar]
      interval_cases c.toNat <;> decide
    · have hlo : 65 ≤ c.toNat := hupper.1
      have hhi : c.toNat ≤ 70 := hupper.2
      rw [← hchar]
      interval_cases c.toNat <;> decide
  · rintro ⟨hd, rfl | rfl⟩
    · exact digitValue?_digitChar hd
    · interval_cases d <;> rfl

theorem digit?_eq_some_iff (hradix : radix ≤ 16) : digit? radix c = some d ↔ IsDigit radix c d := by
  unfold digit?
  rw [Option.filter_eq_some_iff, digitValue?_eq_some_iff, decide_eq_true_eq]
  exact ⟨fun h => ⟨h.2, h.1.2⟩, fun h => ⟨⟨h.1.trans_le hradix, h.2⟩, h.1⟩⟩

/-- Digits are read from left to right, the number so far being shifted by each of them. -/
theorem digitsFrom?_eq_some_iff (hradix : radix ≤ 16) {acc : Nat} :
    digitsFrom? radix acc cs = some n ↔ ∃ ds, List.Forall₂ (IsDigit radix) cs ds ∧
      n = acc * radix ^ cs.length + Nat.ofDigits radix ds.reverse := by
  induction cs generalizing acc with
  | nil =>
    rw [digitsFrom?, Option.some.injEq]
    simp only [List.forall₂_nil_left_iff, exists_eq_left, List.length_nil, Nat.pow_zero,
      Nat.mul_one, List.reverse_nil, Nat.ofDigits_nil, Nat.add_zero]
    exact eq_comm
  | cons c cs ih =>
    rw [digitsFrom?, Option.bind_eq_some_iff]
    simp only [digit?_eq_some_iff hradix, ih, List.forall₂_cons_left_iff]
    have hshift (d : Nat) {ds : List Nat} (h : List.Forall₂ (IsDigit radix) cs ds) :
        (acc * radix + d) * radix ^ cs.length + Nat.ofDigits radix ds.reverse =
          acc * radix ^ (c :: cs).length + Nat.ofDigits radix (d :: ds).reverse := by
      rw [List.reverse_cons, Nat.ofDigits_append, Nat.ofDigits_singleton, List.length_reverse,
        ← h.length_eq, List.length_cons]
      ring
    constructor
    · rintro ⟨d, hd, ds, hds, rfl⟩
      exact ⟨d :: ds, ⟨d, ds, hd, hds, rfl⟩, hshift d hds⟩
    · rintro ⟨-, ⟨d, ds, hd, hds, rfl⟩, rfl⟩
      exact ⟨d, hd, ds, hds, (hshift d hds).symm⟩

theorem digits?_eq_some_iff (hradix : radix ≤ 16) :
    digits? radix cs = some n ↔ Numeral radix cs n := by
  unfold digits? Numeral
  cases cs with
  | nil => simp
  | cons c cs =>
    simp only [List.isEmpty_cons, Bool.false_eq_true, if_false, ne_eq, reduceCtorEq,
      not_false_eq_true, true_and, digitsFrom?_eq_some_iff hradix, Nat.zero_mul, Nat.zero_add]

/-- Digits only. -/
theorem Numeral.isDigit (h : Numeral radix cs n) : ∀ c ∈ cs, ∃ d, IsDigit radix c d := by
  obtain ⟨-, ds, hds, -⟩ := h
  induction hds with
  | nil => exact fun c hc => absurd hc List.not_mem_nil
  | cons hd _ ih => exact List.forall_mem_cons.mpr ⟨⟨_, hd⟩, ih⟩

/-- What is no digit of the radix does not stand among digits. -/
theorem Numeral.not_mem (h : Numeral radix cs n) (hradix : radix ≤ 16)
    (hc : digit? radix c = none) : c ∉ cs := by
  intro hmem
  obtain ⟨d, hd⟩ := h.isDigit c hmem
  rw [(digit?_eq_some_iff hradix).mpr hd] at hc
  cases hc

/-- The reader of digits takes a plus sign in front of them. -/
theorem natural?_eq_some_iff (hradix : radix ≤ 16) : natural? radix cs = some n ↔
    ∃ plus ds, cs = plus ++ ds ∧ (plus = [] ∨ plus = ['+']) ∧ Numeral radix ds n := by
  constructor
  · intro h
    unfold natural? at h
    split at h
    · exact ⟨['+'], _, rfl, Or.inr rfl, (digits?_eq_some_iff hradix).mp h⟩
    · exact ⟨[], cs, rfl, Or.inl rfl, (digits?_eq_some_iff hradix).mp h⟩
  · rintro ⟨plus, ds, rfl, rfl | rfl, hds⟩
    · rw [List.nil_append, natural?_of_head_ne fun c hc heq => ?_]
      · exact (digits?_eq_some_iff hradix).mpr hds
      · exact hds.not_mem hradix (c := '+') rfl (heq ▸ List.mem_of_head? hc)
    · exact (digits?_eq_some_iff hradix).mpr hds

/-! ### Magnitudes -/

/-- What stands in front of digits says their radix. -/
inductive Mark : List Char → Nat → Prop
  | decimal : Mark [] 10
  | octal : Mark ['0'] 8
  | binary {x : Char} (h : x = 'b' ∨ x = 'B') : Mark ['0', x] 2
  | hexadecimal {x : Char} (h : x = 'x' ∨ x = 'X') : Mark ['0', x] 16

/-- A mark and digits of its radix, perhaps with a plus sign between them. Decimal digits have no
superfluous zero in front. -/
structure Magnitude (mark plus digits : List Char) (radix n : Nat) : Prop where
  announced : Mark mark radix
  between : plus = [] ∨ plus = ['+'] ∧ mark ≠ []
  numeral : Numeral radix digits n
  tidy : mark = [] → digits.head? = some '0' → digits = ['0']

theorem Mark.radix_le {mark : List Char} (h : Mark mark radix) : radix ≤ 16 := by
  cases h <;> decide

theorem magnitudeLimit_eq : magnitudeLimit = 2 ^ 127 := Nat.one_shiftLeft 127

theorem radixDigits?_of_head_ne (h : cs.head? ≠ some '0') :
    radixDigits? cs = natural? 10 cs := by
  unfold radixDigits?
  split <;> first | rfl | exact absurd rfl h

theorem radixDigits?_octal (hx : c ≠ 'x' ∧ c ≠ 'X') (hb : c ≠ 'b' ∧ c ≠ 'B') :
    radixDigits? ('0' :: c :: cs) = natural? 8 (c :: cs) := by
  simp [radixDigits?, hx, hb]

section
variable {mark plus : List Char}

theorem Magnitude.plus_eq_nil (h : Magnitude [] plus ds radix n) : plus = [] :=
  h.between.resolve_right fun hplus => hplus.2 rfl

/-- A magnitude begins with a digit. -/
theorem Magnitude.head_ne (h : Magnitude mark plus ds radix n) (hc : digitValue? c = none) :
    (mark ++ (plus ++ ds)).head? ≠ some c := by
  intro heq
  cases h.announced with
  | decimal =>
    obtain rfl := h.plus_eq_nil
    have hdigit : digit? 10 c = none := by rw [digit?, hc, Option.filter_none]
    exact h.numeral.not_mem (by decide) hdigit (List.mem_of_head? heq)
  | octal | binary | hexadecimal =>
    obtain rfl := Option.some.inj heq
    cases hc

theorem radixDigits?_of_magnitude (h : Magnitude mark plus ds radix n) :
    radixDigits? (mark ++ (plus ++ ds)) = some n := by
  have hnatural : natural? radix (plus ++ ds) = some n :=
    (natural?_eq_some_iff h.announced.radix_le).mpr
      ⟨plus, ds, rfl, h.between.imp_right And.left, h.numeral⟩
  cases h.announced with
  | decimal =>
    obtain rfl := h.plus_eq_nil
    by_cases hzero : ds.head? = some '0'
    · obtain rfl := h.tidy rfl hzero
      exact hnatural
    · rw [← hnatural]
      exact radixDigits?_of_head_ne hzero
  | octal =>
    obtain ⟨c, rest, hcs⟩ : ∃ c rest, plus ++ ds = c :: rest :=
      List.exists_cons_of_ne_nil (by simp [h.numeral.1])
    -- what follows is neither of the other marks
    have hne (x : Char) (hx : digit? 8 x = none) (hplus : x ≠ '+') : c ≠ x := by
      rintro rfl
      have hmem : c ∈ plus ++ ds := hcs ▸ List.mem_cons_self
      rcases List.mem_append.mp hmem with hmem | hmem
      · rcases h.between with rfl | ⟨rfl, -⟩
        · cases hmem
        · exact hplus (List.mem_singleton.mp hmem)
      · exact h.numeral.not_mem (by decide) hx hmem
    rw [hcs] at hnatural ⊢
    rw [← hnatural]
    exact radixDigits?_octal ⟨hne _ rfl (by decide), hne _ rfl (by decide)⟩
      ⟨hne _ rfl (by decide), hne _ rfl (by decide)⟩
  | binary hx => rcases hx with rfl | rfl <;> exact hnatural
  | hexadecimal hx => rcases hx with rfl | rfl <;> exact hnatural

/-- **A magnitude is read as its number, within 127 bits.** -/
theorem magnitude?_of_magnitude (h : Magnitude mark plus ds radix n) :
    magnitude? (mark ++ (plus ++ ds)) = if n < 2 ^ 127 then some n else none := by
  unfold magnitude?
  split
  · rename_i hcs
    exact absurd (congrArg List.head? hcs) (h.head_ne rfl)
  · rename_i hcs
    exact absurd (congrArg List.head? hcs) (h.head_ne rfl)
  · rw [radixDigits?_of_magnitude h, magnitudeLimit_eq]
    simp [Option.filter]

end

/-- The reader takes nothing else for a magnitude. -/
theorem exists_of_magnitude? (h : magnitude? cs = some n) : n < 2 ^ 127 ∧
    ∃ mark plus ds radix, cs = mark ++ (plus ++ ds) ∧ Magnitude mark plus ds radix n := by
  refine ⟨magnitudeLimit_eq ▸ magnitude?_lt h, ?_⟩
  unfold magnitude? at h
  split at h
  · cases h
  · cases h
  · rename_i hplus
    obtain ⟨h, -⟩ := Option.filter_eq_some_iff.mp h
    have hmarked (mark : List Char) {rest : List Char} (hcs : cs = mark ++ rest) (hne : mark ≠ [])
        {radix : Nat} (hmark : Mark mark radix) (hrest : natural? radix rest = some n) :
        ∃ mark plus ds radix, cs = mark ++ (plus ++ ds) ∧ Magnitude mark plus ds radix n := by
      obtain ⟨plus, ds, rfl, hplus, hds⟩ := (natural?_eq_some_iff hmark.radix_le).mp hrest
      exact ⟨mark, plus, ds, radix, hcs, hmark, hplus.imp_right fun h => ⟨h, hne⟩, hds,
        fun h => absurd h hne⟩
    unfold radixDigits? at h
    split at h
    · exact hmarked ['0', 'x'] rfl (by simp) (.hexadecimal (Or.inl rfl)) h
    · exact hmarked ['0', 'X'] rfl (by simp) (.hexadecimal (Or.inr rfl)) h
    · exact hmarked ['0', 'b'] rfl (by simp) (.binary (Or.inl rfl)) h
    · exact hmarked ['0', 'B'] rfl (by simp) (.binary (Or.inr rfl)) h
    · exact hmarked ['0'] rfl (by simp) .octal h
    · rename_i hoctal
      obtain ⟨plus, ds, rfl, rfl | rfl, hds⟩ := (natural?_eq_some_iff (by decide)).mp h
      · refine ⟨[], [], ds, 10, rfl, .decimal, Or.inl rfl, hds, fun _ hzero => ?_⟩
        obtain ⟨rest, rfl⟩ := List.head?_eq_some_iff.mp hzero
        cases rest with
        | nil => rfl
        | cons c rest => exact absurd rfl (hoctal c rest)
      · exact absurd rfl (hplus ds)

/-! ### Integers -/

/-- The integer that a sign makes of a magnitude. -/
inductive Signed (n : Nat) : List Char → Int → Prop
  | bare : Signed n [] n
  | plus : Signed n ['+'] n
  | minus : Signed n ['-'] (-n)

/-- The text writes the integer: there are blanks around at most one sign, a mark, and digits. -/
def Notates (s : String) (v : Int) : Prop :=
  ∃ before sign mark ds after radix n,
    s.toList = before ++ (sign ++ (mark ++ ds) ++ after) ∧
    (∀ c ∈ before, Text.isBlank c = true) ∧ (∀ c ∈ after, Text.isBlank c = true) ∧
    Signed n sign v ∧ Magnitude mark [] ds radix n

theorem signed?_minus (cs : List Char) :
    signed? ('-' :: cs) = (magnitude? cs).map fun n : Nat => -(n : Int) := by
  simp only [signed?]
  cases magnitude? cs <;> rfl

theorem signed?_plus (cs : List Char) :
    signed? ('+' :: cs) = (magnitude? cs).map fun n : Nat => (n : Int) := by
  simp only [signed?]
  cases magnitude? cs <;> rfl

theorem signed?_bare (hminus : cs.head? ≠ some '-') (hplus : cs.head? ≠ some '+') :
    signed? cs = (magnitude? cs).map fun n : Nat => (n : Int) := by
  unfold signed?
  split
  · exact absurd rfl hminus
  · exact absurd rfl hplus
  · cases magnitude? cs <;> rfl

section
variable {sign mark plus : List Char}

theorem Signed.natAbs_eq (h : Signed n sign v) : v.natAbs = n := by
  cases h <;> simp

theorem signed?_of_magnitude (hsign : Signed n sign v) (h : Magnitude mark plus ds radix n) :
    signed? (sign ++ (mark ++ (plus ++ ds))) = if v.natAbs < 2 ^ 127 then some v else none := by
  rw [hsign.natAbs_eq]
  cases hsign with
  | minus =>
    rw [List.singleton_append, signed?_minus, magnitude?_of_magnitude h]
    split_ifs <;> rfl
  | plus =>
    rw [List.singleton_append, signed?_plus, magnitude?_of_magnitude h]
    split_ifs <;> rfl
  | bare =>
    rw [List.nil_append, signed?_bare (h.head_ne rfl) (h.head_ne rfl), magnitude?_of_magnitude h]
    split_ifs <;> rfl

/-- The reader takes nothing else for an integer. -/
theorem exists_of_signed? (h : signed? cs = some v) : v.natAbs < 2 ^ 127 ∧
    ∃ sign mark plus ds radix n, cs = sign ++ (mark ++ (plus ++ ds)) ∧ Signed n sign v ∧
      Magnitude mark plus ds radix n := by
  have hbody (sign : List Char) {body : List Char} {f : Nat → Int} (hcs : cs = sign ++ body)
      (hsign : ∀ n, Signed n sign (f n)) (hv : (magnitude? body).map f = some v) :
      v.natAbs < 2 ^ 127 ∧ ∃ sign mark plus ds radix n, cs = sign ++ (mark ++ (plus ++ ds)) ∧
        Signed n sign v ∧ Magnitude mark plus ds radix n := by
    obtain ⟨n, hn, rfl⟩ := Option.map_eq_some_iff.mp hv
    obtain ⟨hlt, mark, plus, ds, radix, rfl, h⟩ := exists_of_magnitude? hn
    exact ⟨(hsign n).natAbs_eq.trans_lt hlt, sign, mark, plus, ds, radix, n, hcs, hsign n, h⟩
  by_cases hminus : cs.head? = some '-'
  · obtain ⟨body, rfl⟩ := List.head?_eq_some_iff.mp hminus
    exact hbody ['-'] rfl (fun _ => .minus) (signed?_minus body ▸ h)
  by_cases hplus : cs.head? = some '+'
  · obtain ⟨body, rfl⟩ := List.head?_eq_some_iff.mp hplus
    exact hbody ['+'] rfl (fun _ => .plus) (signed?_plus body ▸ h)
  · exact hbody [] rfl (fun _ => .bare) (signed?_bare hminus hplus ▸ h)

theorem IsDigit.isNameRest (h : IsDigit radix c d) (hradix : radix ≤ 16) :
    isNameRest c = true := by
  obtain ⟨hd, rfl | rfl⟩ := h
  all_goals
    have hd : d < 16 := hd.trans_le hradix
    interval_cases d <;> rfl

/-- There are no blanks in the notation of an integer. -/
theorem not_isBlank_of_mem (hsign : Signed n sign v) (h : Magnitude mark plus ds radix n) :
    ∀ c ∈ sign ++ (mark ++ (plus ++ ds)), Text.isBlank c = false := by
  have hds : ∀ c ∈ ds, Text.isBlank c = false := fun c hc => by
    obtain ⟨d, hd⟩ := h.numeral.isDigit c hc
    exact isBlank_of_isNameRest (hd.isNameRest h.announced.radix_le)
  have hsign : ∀ c ∈ sign, Text.isBlank c = false := by
    cases hsign <;> simp [Text.isBlank, Text.isBlankCode]
  have hplus : ∀ c ∈ plus, Text.isBlank c = false := by
    rcases h.between with rfl | ⟨rfl, -⟩ <;> simp [Text.isBlank, Text.isBlankCode]
  have hmark : ∀ c ∈ mark, Text.isBlank c = false := by
    cases h.announced with
    | decimal | octal => simp [Text.isBlank, Text.isBlankCode]
    | binary hx | hexadecimal hx =>
      rcases hx with rfl | rfl <;> simp [Text.isBlank, Text.isBlankCode]
  simp only [List.forall_mem_append]
  exact ⟨hsign, hmark, hplus, hds⟩

end

/-- What a notation stands for is read, within 127 bits and a sign. -/
theorem int?_of_notates {s : String} (h : Notates s v) :
    int? s = if v.natAbs < 2 ^ 127 then some v else none := by
  obtain ⟨before, sign, mark, ds, after, radix, n, hs, hbefore, hafter, hsign, h⟩ := h
  have hblank : ∀ c ∈ sign ++ (mark ++ ds), Text.isBlank c = false :=
    fun c hc => not_isBlank_of_mem hsign h c hc
  have hframed : Text.Framed (sign ++ (mark ++ ds)) :=
    ⟨fun c hc => hblank c (List.mem_of_head? hc), fun c hc => hblank c (List.mem_of_getLast? hc)⟩
  have hne : sign ++ (mark ++ ds) ≠ [] := by simp [h.numeral.1]
  unfold int?
  rw [hs, hframed.trim_between hne hbefore hafter]
  exact signed?_of_magnitude hsign h

theorem below?_eq_some_iff {limit : Nat} {s : String} :
    below? limit s = some n ↔ int? s = some (n : Int) ∧ n < limit := by
  unfold below?
  rw [Option.bind_eq_some_iff]
  constructor
  · rintro ⟨v, hv, h⟩
    split_ifs at h with hlt
    obtain rfl := Option.some.inj h
    rw [Int.toNat_of_nonneg hlt.1]
    exact ⟨hv, by omega⟩
  · rintro ⟨hv, hlt⟩
    exact ⟨n, hv, by simp [hlt]⟩

/-- **Integers are read from their notations.** Let a text write an integer, in decimal digits
without a superfluous zero in front, in hexadecimal or binary digits after their marks, or in octal
digits after a zero, with any number of zeros after the mark, digits of either case, a sign and
blanks around all of it. If the magnitude is below `2 ^ 127`, the integer is read, and else nothing
is. Versions and ids, and lengths and counts, are the integers that are read with 32 and with 64
bits. -/
theorem integers_are_read :
    (∀ s v, Notates s v → int? s = if v.natAbs < 2 ^ 127 then some v else none) ∧
    (∀ s n, word32? s = some n ↔ int? s = some (n : Int) ∧ n < 2 ^ 32) ∧
    (∀ s n, word64? s = some n ↔ int? s = some (n : Int) ∧ n < 2 ^ 64) := by
  have h32 : word32Limit = 2 ^ 32 := Nat.one_shiftLeft 32
  have h64 : word64Limit = 2 ^ 64 := Nat.one_shiftLeft 64
  refine ⟨fun s v h => int?_of_notates h, fun s n => ?_, fun s n => ?_⟩
  · rw [word32?, below?_eq_some_iff, h32]
  · rw [word64?, below?_eq_some_iff, h64]

/-- A notation in mixed case with zeros, a sign and blanks, and the first magnitude that is refused. -/
theorem read_hexadecimal_and_limit :
    Notates "\u3000-0X00fF\t" (-255) ∧ int? "\u3000-0X00fF\t" = some (-255) ∧
    Notates "+170141183460469231731687303715884105728" (2 ^ 127) ∧
    int? "+170141183460469231731687303715884105728" = none := by
  have hblank : Text.isBlank '\u3000' = true ∧ Text.isBlank '\t' = true := by decide
  have hhex : Notates "\u3000-0X00fF\t" (-255) :=
    ⟨['\u3000'], ['-'], ['0', 'X'], ['0', '0', 'f', 'F'], ['\t'], 16, 255, rfl,
      List.forall_mem_singleton.mpr hblank.1, List.forall_mem_singleton.mpr hblank.2,
      .minus, .hexadecimal (Or.inr rfl), Or.inl rfl,
      (digits?_eq_some_iff (by decide)).mp (by decide), by simp⟩
  have hlimit : Notates "+170141183460469231731687303715884105728" (2 ^ 127) :=
    ⟨[], ['+'], [], "170141183460469231731687303715884105728".toList, [], 10, 2 ^ 127, rfl,
      List.forall_mem_nil _, List.forall_mem_nil _, .plus, .decimal, Or.inl rfl,
      (digits?_eq_some_iff (by decide)).mp (by decide +kernel), by decide⟩
  exact ⟨hhex, integers_are_read.1 _ _ hhex, hlimit, integers_are_read.1 _ _ hlimit⟩

end WireSchema.Literal
