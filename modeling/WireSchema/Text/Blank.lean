/-! # Blank characters

The blank characters are those with the Unicode property `White_Space`, a larger set than the four
of `Char.isWhitespace` (`isBlank_of_isWhitespace`). `trim` takes them off both ends of a text.
-/

namespace WireSchema.Text

/-- The code points of the Unicode property `White_Space`. -/
def isBlankCode (n : Nat) : Bool :=
  (9 ≤ n && n ≤ 13) || n == 0x20 || n == 0x85 || n == 0xA0 || n == 0x1680 ||
    (0x2000 ≤ n && n ≤ 0x200A) || n == 0x2028 || n == 0x2029 || n == 0x202F || n == 0x205F ||
    n == 0x3000

/-- A character that `trim` takes off. -/
def isBlank (c : Char) : Bool := isBlankCode c.toNat

/-- The text without the blanks at its beginning. -/
def trimStart (cs : List Char) : List Char := cs.dropWhile isBlank

/-- The text without the blanks at its end. -/
def trimEnd (cs : List Char) : List Char := (trimStart cs.reverse).reverse

/-- The text without the blanks at both ends. -/
def trim (cs : List Char) : List Char := trimEnd (trimStart cs)

/-- `trim` on strings. -/
def trimString (s : String) : String := String.ofList (trim s.toList)

theorem isBlank_of_isWhitespace {c : Char} (h : c.isWhitespace = true) : isBlank c = true := by
  simp only [Char.isWhitespace, Bool.or_eq_true, decide_eq_true_eq] at h
  rcases h with ((rfl | rfl) | rfl) | rfl <;> decide

theorem trimStart_cons_of_not_blank {c : Char} {cs : List Char} (h : isBlank c = false) :
    trimStart (c :: cs) = c :: cs := by
  simp [trimStart, h]

end WireSchema.Text
