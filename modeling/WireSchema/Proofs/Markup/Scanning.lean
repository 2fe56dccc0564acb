import Mathlib.Data.List.Infix
import Mathlib.Tactic.SplitIfs
import WireSchema.Markup.Token
import WireSchema.Proofs.Markup.Escaping

/-! # Scanning what is written

Each piece of a document is read off the beginning of the rest as it was written, and the rest is
left behind it (`Cursor.name?_append`, `Cursor.attributes_append`, `Cursor.step?_opening`). Pieces
that stand one after the other are scanned one after the other (`Cursor.Scans`). -/

namespace WireSchema.Markup

/-- The line behind the characters. -/
def behind (line : Nat) (cs : List Char) : Nat := line + cs.count '\n'

theorem behind_append (line : Nat) (xs ys : List Char) :
    behind line (xs ++ ys) = behind (behind line xs) ys := by
  unfold behind
  rw [List.count_append, Nat.add_assoc]

theorem behind_cons {c : Char} (h : c ≠ '\n') (line : Nat) (cs : List Char) :
    behind line (c :: cs) = behind line cs := by
  unfold behind
  rw [List.count_cons_of_ne h]

theorem behind_of_not_mem {cs : List Char} (h : '\n' ∉ cs) (line : Nat) :
    behind line cs = line := by
  unfold behind
  rw [List.count_eq_zero_of_not_mem h, Nat.add_zero]

theorem behind_between {first last : List Char} (hfirst : '\n' ∉ first) (hlast : '\n' ∉ last)
    (body : List Char) (line : Nat) : behind line (first ++ body ++ last) = behind line body := by
  rw [behind_append, behind_append, behind_of_not_mem hlast, behind_of_not_mem hfirst]

/-- The text is a tag or the name of an attribute. -/
def isTag (s : String) : Bool :=
  match s.toList with
  | [] => false
  | c :: cs => isTagStart c && cs.all isTagRest

theorem isTagRest_of_isTagStart {c : Char} (h : isTagStart c = true) : isTagRest c = true := by
  unfold isTagStart at h
  unfold isTagRest Char.isAlphanum
  rw [Bool.or_eq_true, Bool.or_eq_true] at h
  rcases h with (h | h) | h <;> simp [h]

theorem isSpace_of_isTagStart {c : Char} (h : isTagStart c = true) : isSpace c = false := by
  rw [Bool.eq_false_iff]
  intro hspace
  unfold isSpace at hspace
  simp only [Bool.or_eq_true, beq_iff_eq] at hspace
  rcases hspace with ((rfl | rfl) | rfl) | rfl <;> exact absurd h (by decide)

theorem exists_of_isTag {s : String} (h : isTag s = true) :
    ∃ c cs, s.toList = c :: cs ∧ isTagStart c = true ∧ ∀ x ∈ s.toList, isTagRest x = true := by
  unfold isTag at h
  split at h
  · cases h
  · next c cs hs =>
    rw [Bool.and_eq_true] at h
    refine ⟨c, cs, hs, h.1, ?_⟩
    rw [hs]
    exact List.forall_mem_cons.mpr ⟨isTagRest_of_isTagStart h.1, List.all_eq_true.mp h.2⟩

theorem not_mem_of_isTag {s : String} (h : isTag s = true) : '\n' ∉ s.toList := by
  obtain ⟨-, -, -, -, hrest⟩ := exists_of_isTag h
  exact fun hmem => absurd (hrest _ hmem) (by decide)

theorem behind_tag {s : String} (h : isTag s = true) (line : Nat) : behind line s.toList = line :=
  behind_of_not_mem (not_mem_of_isTag h) line

/-! ### Pieces -/

/-- No run of characters with the property goes on into the rest. -/
def Stops (p : Char → Bool) (rest : List Char) : Prop := ∀ x ∈ rest.head?, p x = false

theorem stops_nil (p : Char → Bool) : Stops p [] := by
  intro x hx
  cases hx

theorem stops_cons {p : Char → Bool} {c : Char} (h : p c = false) (cs : List Char) :
    Stops p (c :: cs) := by
  intro x hx
  obtain rfl : c = x := by simpa using hx
  exact h

theorem after?_append (start cs : List Char) : after? start (start ++ cs) = some cs := by
  induction start with
  | nil => rfl
  | cons s start ih => rw [List.cons_append, after?, if_pos (by simp), ih]

theorem after?_eq_some_iff {start cs rest : List Char} :
    after? start cs = some rest ↔ cs = start ++ rest := by
  refine ⟨fun h => ?_, fun h => by rw [h, after?_append]⟩
  induction start generalizing cs with
  | nil => exact Option.some.inj h
  | cons s start ih =>
    cases cs with
    | nil => cases h
    | cons c cs =>
      rw [after?] at h
      split_ifs at h with hs
      rw [ih h, beq_iff_eq.mp hs]
      rfl

theorem splitAt?_of_after? {stop cs rest : List Char} (h : after? stop cs = some rest) :
    splitAt? stop cs = some ([], rest) := by
  cases cs with
  | nil => rw [splitAt?, h, Option.map_some]
  | cons c cs => rw [splitAt?, h]

/-- No `stop` begins in a text without it and ends behind it: its last character is in it only
once. -/
theorem after?_eq_none {init body : List Char} {z : Char} (hz : z ∉ init) (hne : body ≠ [])
    (hbody : ¬ init ++ [z] <:+: body) (rest : List Char) :
    after? (init ++ [z]) (body ++ (init ++ [z] ++ rest)) = none := by
  rw [Option.eq_none_iff_forall_ne_some]
  intro r hr
  rcases List.append_eq_append_iff.mp (after?_eq_some_iff.mp hr) with
    ⟨extra, hstop, hover⟩ | ⟨extra, hbegin, -⟩
  · rcases extra.eq_nil_or_concat with rfl | ⟨extra, y, rfl⟩
    · exact hbody (by rw [hstop, List.append_nil])
    · -- the last character is among those that reach over, and not at their end
      rw [List.concat_eq_append, ← List.append_assoc] at hstop
      obtain ⟨hinit, hy⟩ := List.append_inj' hstop rfl
      obtain rfl : z = y := by simpa using hy
      have hlength := congrArg List.length hinit
      have hpos := List.length_pos_iff.mpr hne
      rw [List.length_append] at hlength
      rw [List.concat_eq_append, List.append_assoc, List.append_assoc] at hover
      have hmem := congrArg (·[extra.length]?) hover
      have hlt : extra.length < init.length := by omega
      rw [List.getElem?_append_left hlt, List.getElem?_append_right le_rfl, Nat.sub_self] at hmem
      exact hz (List.mem_of_getElem? hmem)
  · exact hbody ⟨[], extra, by rw [List.nil_append, ← hbegin]⟩

/-- A text without `stop` ends at the first one behind it. -/
theorem splitAt?_append (init : List Char) (z : Char) {body : List Char} (hz : z ∉ init)
    (hbody : ¬ init ++ [z] <:+: body) (rest : List Char) :
    splitAt? (init ++ [z]) (body ++ (init ++ [z] ++ rest)) = some (body, rest) := by
  induction body with
  | nil => exact splitAt?_of_after? (after?_append _ rest)
  | cons c body ih =>
    have hnone := after?_eq_none hz (List.cons_ne_nil c body) hbody rest
    have hrest : ¬ init ++ [z] <:+: body := fun h =>
      hbody (h.trans (List.suffix_cons c body).isInfix)
    rw [List.cons_append] at hnone ⊢
    rw [splitAt?, hnone]
    dsimp only
    rw [ih hrest]
    rfl

/-- The end of an opening tag. -/
def tagEnd (empty : Bool) : List Char := if empty then ['/', '>'] else ['>']

namespace Cursor

variable {line : Nat} {s : String} {cs tail : List Char} {p : Char → Bool}

theorem skip?_append (line : Nat) (literal : String) (cs : List Char) :
    (⟨line, literal.toList ++ cs⟩ : Cursor).skip? literal = some ⟨line, cs⟩ := by
  rw [skip?, after?_append]
  rfl

theorem skip?_lt (line : Nat) (cs : List Char) :
    (⟨line, '<' :: cs⟩ : Cursor).skip? "<" = some ⟨line, cs⟩ :=
  skip?_append line "<" cs

theorem skip?_gt (line : Nat) (cs : List Char) :
    (⟨line, '>' :: cs⟩ : Cursor).skip? ">" = some ⟨line, cs⟩ :=
  skip?_append line ">" cs

theorem skip?_eq_none (literal : String) {x c : Char} {xs : List Char}
    (hliteral : literal.toList = x :: xs) (hne : x ≠ c) (line : Nat) (cs : List Char) :
    (⟨line, c :: cs⟩ : Cursor).skip? literal = none := by
  rw [skip?, hliteral, after?, if_neg (by simpa using hne)]
  rfl

theorem span_append (line : Nat) (cs : List Char) (hcs : ∀ x ∈ cs, p x = true)
    (htail : Stops p tail) :
    (⟨line, cs ++ tail⟩ : Cursor).span p = (cs, ⟨behind line cs, tail⟩) := by
  have hrest : tail.takeWhile p = [] ∧ tail.dropWhile p = tail := by
    cases tail with
    | nil => exact ⟨rfl, rfl⟩
    | cons x tail =>
      have hx : p x = false := htail x rfl
      simp [hx]
  unfold span
  dsimp only
  rw [List.takeWhile_append_of_pos hcs, List.dropWhile_append_of_pos hcs, hrest.1, hrest.2,
    List.append_nil]
  rfl

theorem skipSpace_of_head (htail : Stops isSpace tail) :
    (⟨line, tail⟩ : Cursor).skipSpace = ⟨line, tail⟩ :=
  congrArg Prod.snd (span_append line [] (by simp) htail)

theorem name?_append (hs : isTag s = true) (htail : Stops isTagRest tail) :
    (⟨line, s.toList ++ tail⟩ : Cursor).name? = some (s, ⟨line, tail⟩) := by
  obtain ⟨c, cs, hcs, hc, hrest⟩ := exists_of_isTag hs
  have hspan := span_append line s.toList hrest htail
  have hhead : s.toList ++ tail = c :: (cs ++ tail) := by rw [hcs, List.cons_append]
  unfold name?
  rw [hspan, behind_tag hs, hhead]
  dsimp only
  rw [if_pos hc, String.ofList_toList]

/-! ### Attributes -/

theorem quoted?_append (cs tail : List Char) (line : Nat) :
    (⟨line, '"' :: (printValue cs ++ '"' :: tail)⟩ : Cursor).quoted? '"' =
      some (printValue cs, ⟨behind line (printValue cs), tail⟩) := by
  have hplain : ∀ x ∈ printValue cs, (x != '"' && x != '<') = true := fun x hx => by
    obtain ⟨hquot, hlt⟩ := plain_of_mem_printValue hx
    simp [hquot, hlt]
  have hmark : Stops (fun x => x != '"' && x != '<') ('"' :: tail) := stops_cons rfl tail
  have hspan := span_append line (printValue cs) hplain hmark
  have hfirst := skip?_append line (String.singleton '"') (printValue cs ++ '"' :: tail)
  have hlast := skip?_append (behind line (printValue cs)) (String.singleton '"') tail
  rw [String.toList_singleton, List.singleton_append] at hfirst hlast
  rw [quoted?, hfirst, Option.bind_some, hspan]
  dsimp only
  rw [hlast]
  rfl

theorem behind_printAttr {a : String × String} (ha : isTag a.1 = true) (line : Nat) :
    behind line (printAttr a) = behind line (printValue a.2.toList) := by
  have hfirst : '\n' ∉ [' '] ++ a.1.toList ++ ['=', '"'] := by simp [not_mem_of_isTag ha]
  have hshape : printAttr a =
      ([' '] ++ a.1.toList ++ ['=', '"']) ++ printValue a.2.toList ++ ['"'] := rfl
  rw [hshape, behind_between hfirst (by decide)]

theorem attribute?_append {a : String × String} (ha : isTag a.1 = true) (line : Nat)
    (tail : List Char) : (⟨line, printAttr a ++ tail⟩ : Cursor).attribute? =
      some ((a.1, printValue a.2.toList), ⟨behind line (printAttr a), tail⟩) := by
  have hshape : printAttr a ++ tail =
      [' '] ++ (a.1.toList ++ '=' :: '"' :: (printValue a.2.toList ++ '"' :: tail)) := by
    simp [printAttr]
  have hname : Stops isSpace
      (a.1.toList ++ '=' :: '"' :: (printValue a.2.toList ++ '"' :: tail)) := by
    obtain ⟨c, cs, hcs, hc, -⟩ := exists_of_isTag ha
    rw [hcs]
    exact stops_cons (isSpace_of_isTagStart hc) _
  have hspaces := span_append line [' '] (List.forall_mem_singleton.mpr rfl) hname
  have hequals : (⟨line, '=' :: '"' :: (printValue a.2.toList ++ '"' :: tail)⟩ :
      Cursor).skip? "=" = some ⟨line, '"' :: (printValue a.2.toList ++ '"' :: tail)⟩ :=
    skip?_append line "=" _
  have hquoted : (⟨line, '"' :: (printValue a.2.toList ++ '"' :: tail)⟩ : Cursor).value? =
      some (printValue a.2.toList, ⟨behind line (printValue a.2.toList), tail⟩) := by
    rw [value?, quoted?_append]
    rfl
  have hblank : behind line [' '] = line := behind_of_not_mem (by decide) line
  rw [attribute?, hshape, hspaces, hblank, behind_printAttr ha]
  dsimp only
  rw [if_neg (by decide), name?_append ha (stops_cons rfl _), Option.bind_some,
    skipSpace_of_head (stops_cons rfl _), hequals, Option.bind_some,
    skipSpace_of_head (stops_cons rfl _), hquoted]
  rfl

/-- No attribute begins at the end of a tag. -/
theorem attribute?_of_stops {rest : List Char} (h : Stops isSpace rest) :
    (⟨line, rest⟩ : Cursor).attribute? = none := by
  have hspaces := span_append line [] (by simp) h
  rw [List.nil_append] at hspaces
  rw [attribute?, hspaces]
  rfl

theorem attributes_of_none {c : Cursor} (h : c.attribute? = none) : c.attributes = ([], c) := by
  rw [attributes]
  split
  · rfl
  · next heq => rw [h] at heq; cases heq

theorem attributes_of_some {c c' : Cursor} {a : String × List Char}
    (h : c.attribute? = some (a, c')) :
    c.attributes = (a :: c'.attributes.1, c'.attributes.2) := by
  rw [attributes]
  split
  · next heq => rw [h] at heq; cases heq
  · next heq =>
    rw [h] at heq
    cases heq
    rfl

/-- **The attributes of a tag are read as they are printed.** -/
theorem attributes_append {attrs : List (String × String)} (h : ∀ a ∈ attrs, isTag a.1 = true)
    (line : Nat) {rest : List Char} (hrest : Stops isSpace rest) :
    (⟨line, attrs.flatMap printAttr ++ rest⟩ : Cursor).attributes =
      (attrs.map fun a => (a.1, printValue a.2.toList),
        ⟨behind line (attrs.flatMap printAttr), rest⟩) := by
  induction attrs generalizing line with
  | nil => exact attributes_of_none (attribute?_of_stops hrest)
  | cons a attrs ih =>
    rw [List.forall_mem_cons] at h
    have hfirst := attribute?_append h.1 line (attrs.flatMap printAttr ++ rest)
    rw [List.flatMap_cons, List.append_assoc, attributes_of_some hfirst, ih h.2, behind_append]
    rfl

/-! ### Tags -/

/-- **An opening tag is read as it is printed.** -/
theorem opening?_append {tag : String} {attrs : List (String × String)} (htag : isTag tag = true)
    (hattrs : ∀ a ∈ attrs, isTag a.1 = true) (empty : Bool) (start line : Nat) (tail : List Char) :
    (⟨line, tag.toList ++ (attrs.flatMap printAttr ++ (tagEnd empty ++ tail))⟩ : Cursor).opening?
        start = some (.opening start tag (attrs.map fun a => (a.1, printValue a.2.toList)) empty,
      ⟨behind line (attrs.flatMap printAttr), tail⟩) := by
  have hstops {p : Char → Bool} (hslash : p '/' = false) (hgt : p '>' = false) :
      Stops p (tagEnd empty ++ tail) := by
    cases empty with
    | false => exact stops_cons hgt tail
    | true => exact stops_cons hslash _
  have hname : Stops isTagRest (attrs.flatMap printAttr ++ (tagEnd empty ++ tail)) := by
    cases attrs with
    | nil => exact hstops rfl rfl
    | cons a attrs => exact stops_cons rfl _
  rw [opening?, name?_append htag hname, Option.bind_some]
  dsimp only
  rw [attributes_append hattrs line (hstops rfl rfl)]
  dsimp only
  rw [skipSpace_of_head (hstops rfl rfl)]
  cases empty with
  | false =>
    have hslash : (⟨behind line (attrs.flatMap printAttr), tagEnd false ++ tail⟩ : Cursor).skip?
        "/>" = none := skip?_eq_none "/>" rfl (by decide : '/' ≠ '>') _ tail
    have hgt : (⟨behind line (attrs.flatMap printAttr), tagEnd false ++ tail⟩ : Cursor).skip? ">" =
        some ⟨behind line (attrs.flatMap printAttr), tail⟩ := skip?_gt _ tail
    rw [hslash]
    dsimp only
    rw [hgt]
    rfl
  | true =>
    have hslash : (⟨behind line (attrs.flatMap printAttr), tagEnd true ++ tail⟩ : Cursor).skip?
        "/>" = some ⟨behind line (attrs.flatMap printAttr), tail⟩ := skip?_append _ "/>" tail
    rw [hslash]

theorem closing?_append {tag : String} (htag : isTag tag = true) (line : Nat) (tail : List Char) :
    (⟨line, tag.toList ++ '>' :: tail⟩ : Cursor).closing? =
      some (.closing line tag, ⟨line, tail⟩) := by
  rw [closing?, name?_append htag (stops_cons rfl tail), Option.bind_some,
    skipSpace_of_head (stops_cons rfl tail), skip?_gt]
  rfl

/-! ### Steps -/

theorem step?_opening {tag : String} {attrs : List (String × String)} (htag : isTag tag = true)
    (hattrs : ∀ a ∈ attrs, isTag a.1 = true) (empty : Bool) (line : Nat) (tail : List Char) :
    (⟨line, '<' :: (tag.toList ++ (attrs.flatMap printAttr ++ (tagEnd empty ++ tail)))⟩ :
        Cursor).step? =
      some (some (.opening line tag (attrs.map fun a => (a.1, printValue a.2.toList)) empty),
        ⟨behind line (attrs.flatMap printAttr), tail⟩) := by
  have hopening := opening?_append htag hattrs empty line line tail
  obtain ⟨c, cs, hcs, hc, -⟩ := exists_of_isTag htag
  have hne {x : Char} (hx : isTagStart x = false) : x ≠ c := by
    rintro rfl
    rw [hc] at hx
    cases hx
  rw [hcs, List.cons_append] at hopening ⊢
  unfold step?
  rw [skip?_lt]
  dsimp only
  rw [skip?_eq_none "!--" rfl (hne rfl), skip?_eq_none "?" rfl (hne rfl),
    skip?_eq_none "![CDATA[" rfl (hne rfl),
    skip?_eq_none "/" rfl (hne rfl)]
  dsimp only
  rw [hopening]
  rfl

theorem step?_closing {tag : String} (htag : isTag tag = true) (line : Nat) (tail : List Char) :
    (⟨line, '<' :: '/' :: (tag.toList ++ '>' :: tail)⟩ : Cursor).step? =
      some (some (.closing line tag), ⟨line, tail⟩) := by
  have hslash : (⟨line, '/' :: (tag.toList ++ '>' :: tail)⟩ : Cursor).skip? "/" =
      some ⟨line, tag.toList ++ '>' :: tail⟩ := skip?_append line "/" _
  unfold step?
  rw [skip?_lt]
  dsimp only
  rw [skip?_eq_none "!--" rfl (by decide),
    skip?_eq_none "?" rfl (by decide),
    skip?_eq_none "![CDATA[" rfl (by decide), hslash]
  dsimp only
  rw [closing?_append htag]
  rfl

/-- A text ends where markup begins. -/
theorem step?_text {raw tail : List Char} (hne : raw ≠ []) (hraw : ∀ c ∈ raw, c ≠ '<')
    (htail : Stops (· != '<') tail) (line : Nat) :
    (⟨line, raw ++ tail⟩ : Cursor).step? = some (some (.text raw), ⟨behind line raw, tail⟩) := by
  have hspan := span_append line raw (fun c hc => by simpa using hraw c hc) htail
  obtain ⟨c, cs, rfl⟩ := List.exists_cons_of_ne_nil hne
  have hfirst : (⟨line, c :: cs ++ tail⟩ : Cursor).skip? "<" = none :=
    skip?_eq_none "<" rfl (Ne.symm (hraw c List.mem_cons_self)) line (cs ++ tail)
  unfold step?
  rw [hfirst]
  dsimp only
  rw [hspan]
  rfl

/-- A comment leaves no token. -/
theorem step?_comment {body : List Char} (hbody : ¬ ['-', '-', '>'] <:+: body) (line : Nat)
    (tail : List Char) :
    (⟨line, ['<', '!', '-', '-'] ++ (body ++ (['-', '-', '>'] ++ tail))⟩ : Cursor).step? =
      some (none, ⟨behind line body, tail⟩) := by
  have hopen : (⟨line, '!' :: '-' :: '-' :: (body ++ (['-', '-', '>'] ++ tail))⟩ : Cursor).skip?
      "!--" = some ⟨line, body ++ (['-', '-', '>'] ++ tail)⟩ := skip?_append line "!--" _
  have hsplit : splitAt? "-->".toList (body ++ (['-', '-', '>'] ++ tail)) = some (body, tail) :=
    splitAt?_append ['-', '-'] '>' (by decide) hbody tail
  rw [List.cons_append]
  unfold step?
  rw [skip?_lt]
  dsimp only
  rw [List.cons_append, List.cons_append, List.cons_append, List.nil_append, hopen]
  dsimp only
  rw [upTo?, hsplit]
  rfl

/-- A processing instruction leaves no token. -/
theorem step?_instruction {body : List Char} (hbody : ¬ ['?', '>'] <:+: body) (line : Nat)
    (tail : List Char) :
    (⟨line, ['<', '?'] ++ (body ++ (['?', '>'] ++ tail))⟩ : Cursor).step? =
      some (none, ⟨behind line body, tail⟩) := by
  have hopen : (⟨line, '?' :: (body ++ (['?', '>'] ++ tail))⟩ : Cursor).skip? "?" =
      some ⟨line, body ++ (['?', '>'] ++ tail)⟩ := skip?_append line "?" _
  have hsplit : splitAt? "?>".toList (body ++ (['?', '>'] ++ tail)) = some (body, tail) :=
    splitAt?_append ['?'] '>' (by decide) hbody tail
  rw [List.cons_append]
  unfold step?
  rw [skip?_lt]
  dsimp only
  rw [List.cons_append, List.nil_append, skip?_eq_none "!--" rfl (by decide), hopen]
  dsimp only
  rw [upTo?, hsplit]
  rfl

/-! ### Runs -/

/-- Step by step, the tokens lead from one cursor to the other. -/
inductive Scans : Cursor → List Token → Cursor → Prop
  | refl (c : Cursor) : Scans c [] c
  | token {c c₁ c₂ : Cursor} {t : Token} {ts : List Token} (h : c.step? = some (some t, c₁))
    (hrest : Scans c₁ ts c₂) : Scans c (t :: ts) c₂
  | skip {c c₁ c₂ : Cursor} {ts : List Token} (h : c.step? = some (none, c₁))
    (hrest : Scans c₁ ts c₂) : Scans c ts c₂

namespace Scans

variable {c c₁ c₂ : Cursor} {ts us : List Token}

theorem trans (h : Scans c ts c₁) (h' : Scans c₁ us c₂) : Scans c (ts ++ us) c₂ := by
  induction h with
  | refl => exact h'
  | token hstep _ ih => exact .token hstep (ih h')
  | skip hstep _ ih => exact .skip hstep (ih h')

theorem single {t : Token} (h : c.step? = some (some t, c₁)) : Scans c [t] c₁ :=
  .token h (.refl c₁)

theorem tokens?_of_step? {t : Option Token} (h : c.step? = some (t, c₁)) :
    c.tokens? = c₁.tokens?.map (t.toList ++ ·) := by
  have hne : ¬ c.rest.isEmpty = true := by
    have hlength := step?_length h
    rw [List.isEmpty_iff, ← List.length_eq_zero_iff]
    omega
  rw [tokens?, if_neg hne]
  split
  · next heq => rw [h] at heq; cases heq
  · next heq =>
    rw [h] at heq
    cases heq
    show c₁.tokens? = Option.map id c₁.tokens?
    rw [Option.map_id, id]
  · next heq =>
    rw [h] at heq
    cases heq
    rfl

/-- **A run that leads to the end finds the tokens.** -/
theorem tokens?_eq {line : Nat} (h : Scans c ts ⟨line, []⟩) : c.tokens? = some ts := by
  generalize hend : (⟨line, []⟩ : Cursor) = last at h
  induction h with
  | refl =>
    subst hend
    rw [tokens?]
    rfl
  | token hstep _ ih => rw [tokens?_of_step? hstep, ih hend]; rfl
  | skip hstep _ ih => rw [tokens?_of_step? hstep, ih hend]; rfl

end Scans

end Cursor

end WireSchema.Markup
