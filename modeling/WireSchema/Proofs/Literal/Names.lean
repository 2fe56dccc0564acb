import WireSchema.Literal.Name
import WireSchema.Proofs.Markup.Escaping

/-! # Names and numbers

A name begins with a letter or an underscore, and these come after the digits and the signs among
the characters. So a name is not a number (`int?_of_isName`). -/

namespace WireSchema.Literal

/-- Letters and the underscore come after the digits and the signs. -/
theorem toNat_of_isNameStart {c : Char} (h : isNameStart c = true) : 65 ≤ c.toNat := by
  unfold isNameStart at h
  rw [Bool.or_eq_true, beq_iff_eq] at h
  rcases h with h | rfl
  · unfold Char.isAlpha Char.isUpper Char.isLower at h
    simp only [Bool.or_eq_true, Bool.and_eq_true, decide_eq_true_eq] at h
    rcases h with ⟨h, -⟩ | ⟨h, -⟩
    · exact h
    · exact le_trans (by decide) (show 97 ≤ c.toNat from h)
  · decide

theorem digit?_of_isNameStart {c : Char} (h : isNameStart c = true) : digit? 10 c = none := by
  have hc := toNat_of_isNameStart h
  rw [digit?, Option.filter_eq_none_iff]
  intro d hd
  unfold digitValue? at hd
  split_ifs at hd with hdigit hlower hupper
  · have hle : c.toNat ≤ 57 := hdigit.2
    omega
  · have hle : 97 ≤ c.toNat := hlower.1
    obtain rfl := Option.some.inj hd
    simp only [decide_eq_true_eq]
    omega
  · obtain rfl := Option.some.inj hd
    simp only [decide_eq_true_eq]
    omega

/-- The characters of a name lie between the first digit and the last letter. -/
theorem toNat_of_isNameRest {c : Char} (h : isNameRest c = true) :
    48 ≤ c.toNat ∧ c.toNat ≤ 122 := by
  unfold isNameRest at h
  rw [Bool.or_eq_true, beq_iff_eq] at h
  rcases h with h | rfl
  · unfold Char.isAlphanum Char.isAlpha Char.isUpper Char.isLower Char.isDigit at h
    simp only [Bool.or_eq_true, Bool.and_eq_true, decide_eq_true_eq] at h
    rcases h with (⟨hlo, hhi⟩ | ⟨hlo, hhi⟩) | ⟨hlo, hhi⟩
    · have hlo : 65 ≤ c.toNat := hlo
      have hhi : c.toNat ≤ 90 := hhi
      omega
    · have hlo : 97 ≤ c.toNat := hlo
      have hhi : c.toNat ≤ 122 := hhi
      omega
    · have hlo : 48 ≤ c.toNat := hlo
      have hhi : c.toNat ≤ 57 := hhi
      omega
  · decide

theorem isBlank_of_isNameRest {c : Char} (h : isNameRest c = true) : Text.isBlank c = false := by
  obtain ⟨hlo, hhi⟩ := toNat_of_isNameRest h
  simp only [Text.isBlank, Text.isBlankCode, Bool.or_eq_false_iff, Bool.and_eq_false_iff,
    decide_eq_false_iff_not, beq_eq_false_iff_ne]
  omega

theorem isNameRest_of_isNameStart {c : Char} (h : isNameStart c = true) : isNameRest c = true := by
  unfold isNameStart at h
  unfold isNameRest Char.isAlphanum
  rw [Bool.or_eq_true] at h ⊢
  exact h.imp_left fun hc => by rw [hc, Bool.true_or]

/-- **A name is not a number.** -/
theorem int?_of_isName {s : String} (h : isName s = true) : int? s = none := by
  unfold isName at h
  unfold int?
  cases hs : s.toList with
  | nil => simp [hs, isNameText] at h
  | cons c cs =>
    rw [hs, isNameText, Bool.and_eq_true, List.all_eq_true] at h
    obtain ⟨hstart, hrest⟩ := h
    have hblank : ∀ x ∈ c :: cs, Text.isBlank x = false :=
      List.forall_mem_cons.mpr ⟨isBlank_of_isNameRest (isNameRest_of_isNameStart hstart),
        fun x hx => isBlank_of_isNameRest (hrest x hx)⟩
    have hframed : Text.Framed (c :: cs) :=
      ⟨fun x hx => hblank x (List.mem_of_mem_head? hx),
        fun x hx => hblank x (List.mem_of_getLast? hx)⟩
    rw [hframed.trim_eq]
    have hne (x : Char) (hx : x.toNat < 65) : c ≠ x := by
      rintro rfl
      exact absurd (toNat_of_isNameStart hstart) (by omega)
    have hdigits : radixDigits? (c :: cs) = none := by
      simp [radixDigits?, natural?, digits?, digitsFrom?, digit?_of_isNameStart hstart,
        hne '0' (by decide), hne '+' (by decide)]
    simp [signed?, magnitude?, hdigits, hne '-' (by decide), hne '+' (by decide)]

end WireSchema.Literal
