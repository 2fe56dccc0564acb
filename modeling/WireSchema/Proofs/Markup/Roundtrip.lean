import WireSchema.Markup.Document
import WireSchema.Proofs.Markup.Scanning

/-! # Reading what is printed

A document that is printed is read again as the same tree, but for the lines of its elements, which
are those of the document (`parse_printAs`, `parse_print`). The root may have comments, processing
instructions and blanks around it, and an element with nothing in it may be written as one tag. -/

namespace WireSchema.Markup

/-! ### What surrounds the root -/

/-- What may stand before and after the root. -/
inductive Misc
  | blanks (cs : List Char)
  | comment (body : List Char)
  | instruction (body : List Char)

namespace Misc

/-- Nothing in the piece ends it too early. -/
def Sound : Misc → Prop
  | .blanks cs => ∀ c ∈ cs, isSpace c = true
  | .comment body => ¬ ['-', '-', '>'] <:+: body
  | .instruction body => ¬ ['?', '>'] <:+: body

instance : DecidablePred Sound
  | .blanks _ => decidable_of_iff _ List.all_eq_true
  | .comment body => inferInstanceAs (Decidable (¬ ['-', '-', '>'] <:+: body))
  | .instruction body => inferInstanceAs (Decidable (¬ ['?', '>'] <:+: body))

/-- The piece as it is written. -/
def print : Misc → List Char
  | .blanks cs => cs
  | .comment body => ['<', '!', '-', '-'] ++ body ++ ['-', '-', '>']
  | .instruction body => ['<', '?'] ++ body ++ ['?', '>']

end Misc

theorem step?_printed_comment {body : List Char} (h : (Misc.comment body).Sound) (line : Nat)
    (tail : List Char) : (⟨line, (Misc.comment body).print ++ tail⟩ : Cursor).step? =
      some (none, ⟨behind line (Misc.comment body).print, tail⟩) := by
  have hline : behind line (Misc.comment body).print = behind line body :=
    behind_between (by decide) (by decide) body line
  rw [hline, Misc.print, List.append_assoc, List.append_assoc]
  exact Cursor.step?_comment h line tail

theorem step?_printed_instruction {body : List Char} (h : (Misc.instruction body).Sound)
    (line : Nat) (tail : List Char) :
    (⟨line, (Misc.instruction body).print ++ tail⟩ : Cursor).step? =
      some (none, ⟨behind line (Misc.instruction body).print, tail⟩) := by
  have hline : behind line (Misc.instruction body).print = behind line body :=
    behind_between (by decide) (by decide) body line
  rw [hline, Misc.print, List.append_assoc, List.append_assoc]
  exact Cursor.step?_instruction h line tail

/-- A text of blanks. -/
def IsBlanks (t : Token) : Prop := ∃ raw : List Char, t = .text raw ∧ raw.all isSpace = true

theorem scans_blanks {cs tail : List Char} (hcs : ∀ c ∈ cs, isSpace c = true)
    (htail : Stops (· != '<') tail) (line : Nat) :
    ∃ ts, (∀ t ∈ ts, IsBlanks t) ∧ Cursor.Scans ⟨line, cs ++ tail⟩ ts ⟨behind line cs, tail⟩ := by
  by_cases hne : cs = []
  · subst hne
    exact ⟨[], by simp, .refl _⟩
  · have hraw : ∀ c ∈ cs, c ≠ '<' := by
      rintro c hc rfl
      exact absurd (hcs _ hc) (by decide)
    refine ⟨[.text cs], List.forall_mem_singleton.mpr ⟨cs, rfl, List.all_eq_true.mpr hcs⟩, ?_⟩
    exact .single (Cursor.step?_text hne hraw htail line)

/-- **Around the root, only blanks leave tokens.** -/
theorem scans_misc {ms : List Misc} (hms : ∀ m ∈ ms, m.Sound) {tail : List Char}
    (htail : Stops (· != '<') tail) (line : Nat) :
    ∃ ts, (∀ t ∈ ts, IsBlanks t) ∧ Cursor.Scans ⟨line, ms.flatMap Misc.print ++ tail⟩ ts
      ⟨behind line (ms.flatMap Misc.print), tail⟩ := by
  -- blanks that follow one another are one text
  suffices h : ∀ cs : List Char, (∀ c ∈ cs, isSpace c = true) → ∀ line, ∃ ts,
      (∀ t ∈ ts, IsBlanks t) ∧ Cursor.Scans ⟨line, cs ++ (ms.flatMap Misc.print ++ tail)⟩ ts
        ⟨behind line (cs ++ ms.flatMap Misc.print), tail⟩ from h [] (by simp) line
  induction ms with
  | nil =>
    intro cs hcs line
    rw [List.flatMap_nil, List.nil_append, List.append_nil]
    exact scans_blanks hcs htail line
  | cons m ms ih =>
    intro cs hcs line
    obtain ⟨hm, hrest⟩ := List.forall_mem_cons.mp hms
    -- what leaves no token is skipped after the blanks before it
    have hskipped (hstep : ∀ line, (⟨line, m.print ++
          (ms.flatMap Misc.print ++ tail)⟩ : Cursor).step? =
        some (none, ⟨behind line m.print, ms.flatMap Misc.print ++ tail⟩))
        (hstops : Stops (· != '<') (m.print ++ (ms.flatMap Misc.print ++ tail))) : ∃ ts,
        (∀ t ∈ ts, IsBlanks t) ∧ Cursor.Scans
          ⟨line, cs ++ ((m :: ms).flatMap Misc.print ++ tail)⟩ ts
          ⟨behind line (cs ++ (m :: ms).flatMap Misc.print), tail⟩ := by
      obtain ⟨ts, hts, hscan⟩ := scans_blanks hcs hstops line
      obtain ⟨us, hus, hlater⟩ := ih hrest [] (by simp) (behind (behind line cs) m.print)
      refine ⟨ts ++ us, List.forall_mem_append.mpr ⟨hts, hus⟩, ?_⟩
      rw [List.flatMap_cons, behind_append, behind_append, List.append_assoc]
      exact hscan.trans (.skip (hstep _) hlater)
    cases m with
    | blanks bs =>
      obtain ⟨ts, hts, hscan⟩ := ih hrest (cs ++ bs) (List.forall_mem_append.mpr ⟨hcs, hm⟩) line
      refine ⟨ts, hts, ?_⟩
      rw [List.append_assoc, List.append_assoc] at hscan
      rw [List.flatMap_cons, List.append_assoc]
      exact hscan
    | comment body =>
      exact hskipped (fun line => step?_printed_comment hm line _) (stops_cons rfl _)
    | instruction body =>
      exact hskipped (fun line => step?_printed_instruction hm line _) (stops_cons rfl _)

/-! ### Elements as they are printed -/

namespace Element

/-- All tags and names of attributes in the tree follow the grammar. -/
inductive Named : Element → Prop
  | mk {e : Element} (tag : isTag e.tag = true) (attrs : ∀ a ∈ e.attrs, isTag a.1 = true)
    (children : ∀ c ∈ e.children, c.Named) : e.Named

/-- The element is written as one tag: there is nothing in it, and it is chosen to be short. -/
def isBare (short : Element → Bool) (e : Element) : Bool :=
  short e && e.children.isEmpty && e.text.isEmpty

mutual

/-- The canonical document of an element, but that some elements with nothing in them are written
as one tag. -/
def printAs (short : Element → Bool) : Element → List Char
  | ⟨tag, attrs, children, text, line⟩ =>
    let bare := isBare short ⟨tag, attrs, children, text, line⟩
    '<' :: (tag.toList ++ (attrs.flatMap printAttr ++ (tagEnd bare ++
      if bare then []
      else printText text.toList ++
        (printAllAs short children ++ '<' :: '/' :: (tag.toList ++ ['>'])))))

/-- The documents of elements, one after the other. -/
def printAllAs (short : Element → Bool) : List Element → List Char
  | [] => []
  | e :: es => e.printAs short ++ printAllAs short es

end

/-- The tokens of a text. -/
def textTokens (text : List Char) : List Token :=
  if text.isEmpty then [] else [.text (printText text)]

mutual

/-- The tokens of an element that is printed from a line on. -/
def tokens (short : Element → Bool) (start : Nat) : Element → List Token
  | ⟨tag, attrs, children, text, line⟩ =>
    let bare := isBare short ⟨tag, attrs, children, text, line⟩
    let inside := behind (behind start (attrs.flatMap printAttr)) (printText text.toList)
    .opening start tag (attrs.map fun a => (a.1, printValue a.2.toList)) bare ::
      if bare then []
      else textTokens text.toList ++ (tokensAll short inside children ++
        [.closing (behind inside (printAllAs short children)) tag])

/-- The tokens of elements that are printed from a line on. -/
def tokensAll (short : Element → Bool) (start : Nat) : List Element → List Token
  | [] => []
  | e :: es => e.tokens short start ++ tokensAll short (behind start (e.printAs short)) es

end

mutual

/-- The element with the lines that its parts have when it is printed from a line on. -/
def placed (short : Element → Bool) (start : Nat) : Element → Element
  | ⟨tag, attrs, children, text, _⟩ =>
    ⟨tag, attrs, placedAll short
      (behind (behind start (attrs.flatMap printAttr)) (printText text.toList)) children, text,
      start⟩

/-- The elements with the lines that they have when they are printed from a line on. -/
def placedAll (short : Element → Bool) (start : Nat) : List Element → List Element
  | [] => []
  | e :: es => e.placed short start :: placedAll short (behind start (e.printAs short)) es

end

mutual

/-- The element without the lines of its parts. -/
def withoutLines : Element → Element
  | ⟨tag, attrs, children, text, _⟩ => ⟨tag, attrs, withoutLinesAll children, text, 0⟩

/-- The elements without their lines. -/
def withoutLinesAll : List Element → List Element
  | [] => []
  | e :: es => e.withoutLines :: withoutLinesAll es

end

variable {short : Element → Bool} {e : Element} {es : List Element}

theorem withoutLinesAll_placedAll
    (h : ∀ e ∈ es, ∀ start, (e.placed short start).withoutLines = e.withoutLines) (start : Nat) :
    withoutLinesAll (placedAll short start es) = withoutLinesAll es := by
  induction es generalizing start with
  | nil => rw [placedAll]
  | cons e es ih =>
    rw [List.forall_mem_cons] at h
    rw [placedAll, withoutLinesAll, withoutLinesAll, h.1, ih h.2]

theorem withoutLines_placed (short : Element → Bool) (start : Nat) (e : Element) :
    (e.placed short start).withoutLines = e.withoutLines := by
  induction e using nested_induction generalizing start with
  | step e ih =>
    obtain ⟨tag, attrs, children, text, line⟩ := e
    have hchildren := withoutLinesAll_placedAll fun c hc start => ih c hc start
    rw [placed, withoutLines, withoutLines, hchildren]

theorem printAllAs_never (h : ∀ e ∈ es, e.printAs (fun _ => false) = e.print) :
    printAllAs (fun _ => false) es = printAll es := by
  induction es with
  | nil => rw [printAllAs, printAll]
  | cons e es ih =>
    rw [List.forall_mem_cons] at h
    rw [printAllAs, printAll, h.1, ih h.2]

/-- The canonical document is the one in which no element is short. -/
theorem printAs_never (e : Element) : e.printAs (fun _ => false) = e.print := by
  induction e using nested_induction with
  | step e ih =>
    obtain ⟨tag, attrs, children, text, line⟩ := e
    have hchildren := printAllAs_never fun c hc => ih c hc
    rw [printAs, print, hchildren]
    simp [isBare, tagEnd]

/-! ### Scanning -/

theorem stops_printAs (short : Element → Bool) (e : Element) (rest : List Char) :
    Stops (· != '<') (e.printAs short ++ rest) := by
  obtain ⟨tag, attrs, children, text, line⟩ := e
  rw [printAs]
  exact stops_cons rfl _

theorem stops_printAllAs (short : Element → Bool) (es : List Element) {rest : List Char}
    (hrest : Stops (· != '<') rest) : Stops (· != '<') (printAllAs short es ++ rest) := by
  cases es with
  | nil => rwa [printAllAs]
  | cons e es =>
    rw [printAllAs, List.append_assoc]
    exact stops_printAs short e _

theorem behind_opening {tag : String} (htag : isTag tag = true) (attrs : List (String × String))
    (empty : Bool) (line : Nat) (rest : List Char) :
    behind line ('<' :: (tag.toList ++ (attrs.flatMap printAttr ++ (tagEnd empty ++ rest)))) =
      behind (behind line (attrs.flatMap printAttr)) rest := by
  have hend (line : Nat) : behind line (tagEnd empty) = line :=
    behind_of_not_mem (by cases empty <;> decide) line
  rw [behind_cons (by decide), behind_append, behind_tag htag, behind_append, behind_append, hend]

theorem behind_closing {tag : String} (htag : isTag tag = true) (line : Nat) :
    behind line ('<' :: '/' :: (tag.toList ++ ['>'])) = line := by
  rw [behind_cons (by decide), behind_cons (by decide), behind_append, behind_tag htag]
  exact behind_of_not_mem (by decide) line

theorem scans_textTokens (text : List Char) {tail : List Char} (htail : Stops (· != '<') tail)
    (line : Nat) : Cursor.Scans ⟨line, printText text ++ tail⟩ (textTokens text)
      ⟨behind line (printText text), tail⟩ := by
  unfold textTokens
  cases text with
  | nil => exact .refl _
  | cons c cs =>
    have hne : printText (c :: cs) ≠ [] := fun h => by cases printText_eq_nil_iff.mp h
    exact .single (Cursor.step?_text hne (fun x hx => ne_of_mem_printText hx) htail line)

theorem scans_printAllAs (h : ∀ e ∈ es, ∀ line tail,
      Cursor.Scans ⟨line, e.printAs short ++ tail⟩ (e.tokens short line)
        ⟨behind line (e.printAs short), tail⟩) (line : Nat) (tail : List Char) :
    Cursor.Scans ⟨line, printAllAs short es ++ tail⟩ (tokensAll short line es)
      ⟨behind line (printAllAs short es), tail⟩ := by
  induction es generalizing line with
  | nil =>
    rw [printAllAs, tokensAll]
    exact .refl _
  | cons e es ih =>
    rw [List.forall_mem_cons] at h
    rw [printAllAs, tokensAll, List.append_assoc, behind_append]
    exact (h.1 line _).trans (ih h.2 _)

/-- **An element that is printed has its tokens.** -/
theorem Named.scans (h : e.Named) (short : Element → Bool) (line : Nat) (tail : List Char) :
    Cursor.Scans ⟨line, e.printAs short ++ tail⟩ (e.tokens short line)
      ⟨behind line (e.printAs short), tail⟩ := by
  induction e using nested_induction generalizing line tail with
  | step e ih =>
    obtain ⟨htag, hattrs, hnamed⟩ := h
    obtain ⟨tag, attrs, children, text, oldLine⟩ := e
    have hchildren := scans_printAllAs fun c hc line tail => ih c hc (hnamed c hc) line tail
    rw [printAs, tokens]
    generalize isBare short ⟨tag, attrs, children, text, oldLine⟩ = bare
    rw [behind_opening htag, List.cons_append, List.append_assoc, List.append_assoc,
      List.append_assoc]
    refine .token (Cursor.step?_opening htag hattrs bare line _) ?_
    cases bare with
    | true => exact .refl _
    | false =>
      have hrest : printText text.toList ++ (printAllAs short children ++
            '<' :: '/' :: (tag.toList ++ ['>'])) ++ tail =
          printText text.toList ++ (printAllAs short children ++
            '<' :: '/' :: (tag.toList ++ '>' :: tail)) := by
        simp
      have hmark : Stops (· != '<') ('<' :: '/' :: (tag.toList ++ '>' :: tail)) := stops_cons rfl _
      have hstops := stops_printAllAs short children hmark
      simp only [Bool.false_eq_true, if_false]
      rw [hrest, behind_append, behind_append, behind_closing htag]
      refine (scans_textTokens text.toList hstops _).trans ?_
      exact (hchildren _ _).trans (.single (Cursor.step?_closing htag _ tail))

/-! ### Nesting -/

theorem nests_textTokens (text : List Char) {depth : Nat} (hdepth : depth ≠ 0) (seen : Bool)
    (ts : List Token) : nests depth seen (textTokens text ++ ts) = nests depth seen ts := by
  unfold textTokens
  split_ifs
  · rfl
  · rw [List.singleton_append, nests]
    simp [hdepth]

theorem nests_tokensAll {depth : Nat} (h : ∀ e ∈ es, ∀ line ts,
      nests depth true (e.tokens short line ++ ts) = nests depth true ts) (line : Nat)
    (ts : List Token) : nests depth true (tokensAll short line es ++ ts) = nests depth true ts := by
  induction es generalizing line with
  | nil => rw [tokensAll, List.nil_append]
  | cons e es ih =>
    rw [List.forall_mem_cons] at h
    rw [tokensAll, List.append_assoc, h.1, ih h.2]

/-- **The tags of an element nest**, unless it is a second root. -/
theorem nests_tokens (short : Element → Bool) (e : Element) (line : Nat) {depth : Nat} {seen : Bool}
    (h : depth = 0 → seen = false) (ts : List Token) :
    nests depth seen (e.tokens short line ++ ts) = nests depth true ts := by
  induction e using nested_induction generalizing line depth seen ts with
  | step e ih =>
    obtain ⟨tag, attrs, children, text, oldLine⟩ := e
    have hdepth : depth + 1 ≠ 0 := Nat.succ_ne_zero depth
    have hchildren := nests_tokensAll fun c hc line ts =>
      ih c hc line (fun h => absurd h hdepth) ts
    have hfree : (!(depth == 0 && seen)) = true := by
      by_cases hdepth : depth = 0
      · simp [hdepth, h hdepth]
      · simp [hdepth]
    rw [tokens]
    generalize isBare short ⟨tag, attrs, children, text, oldLine⟩ = bare
    rw [List.cons_append, nests, hfree, Bool.true_and]
    cases bare with
    | true => rfl
    | false =>
      simp only [Bool.false_eq_true, if_false]
      rw [List.append_assoc, nests_textTokens _ hdepth, List.append_assoc, hchildren,
        List.singleton_append, nests]
      rfl

/-! ### Building -/

theorem decodeAttrs_written (attrs : List (String × String)) :
    decodeAttrs (attrs.map fun a => (a.1, printValue a.2.toList)) = .ok attrs := by
  induction attrs with
  | nil => rfl
  | cons a attrs ih =>
    rw [List.map_cons, decodeAttrs, decode_printValue, ih]
    show Except.ok ((a.1, String.ofList a.2.toList) :: attrs) = .ok (a :: attrs)
    rw [String.ofList_toList]

theorem build_textTokens (text : List Char) (o : OpenElement) (stack : List OpenElement)
    (root : Option Element) (ts : List Token) :
    build (o :: stack) root (textTokens text ++ ts) = build (o.addText text :: stack) root ts := by
  unfold textTokens
  split_ifs with htext
  · unfold OpenElement.addText
    rw [if_pos htext]
    rfl
  · rw [List.singleton_append, build, decode_trim_printText]

/-- The reading goes on after an element is complete: it is a child of the innermost open element,
or the root. -/
def resume (stack : List OpenElement) (root : Option Element) (e : Element) (ts : List Token) :
    Except Fault Element :=
  match stack with
  | [] => build [] (some e) ts
  | p :: ps => build (p.addChild e :: ps) root ts

theorem build_closing {o : OpenElement} {tag : String} (htag : o.tag = tag)
    (stack : List OpenElement) (root : Option Element) (line : Nat) (ts : List Token) :
    build (o :: stack) root (.closing line tag :: ts) = resume stack root o.close ts := by
  cases stack <;> rw [build, if_pos (beq_iff_eq.mpr htag.symm)] <;> rfl

/-- What is open closes with its children and its one text. -/
theorem close_addText (line : Nat) (tag : String) (attrs : List (String × String))
    (children : List Element) (text : String) :
    ({ (OpenElement.mk line tag attrs [] []).addText text.toList with
        children := children.reverse } : OpenElement).close =
      ⟨tag, attrs, children, text, line⟩ := by
  unfold OpenElement.addText OpenElement.close
  split_ifs with htext
  · obtain rfl : text = "" := by simpa using htext
    rw [List.reverse_reverse]
    rfl
  · rw [List.reverse_reverse, String.ofList_toList, List.reverse_singleton,
      String.intercalate_singleton]

theorem build_tokensAll {root : Option Element} (h : ∀ e ∈ es, ∀ line stack ts,
      build stack root (e.tokens short line ++ ts) = resume stack root (e.placed short line) ts)
    (line : Nat) (o : OpenElement) (stack : List OpenElement) (ts : List Token) :
    build (o :: stack) root (tokensAll short line es ++ ts) =
      build ({ o with children := (placedAll short line es).reverse ++ o.children } :: stack) root
        ts := by
  induction es generalizing line o with
  | nil =>
    rw [tokensAll, placedAll]
    rfl
  | cons e es ih =>
    rw [List.forall_mem_cons] at h
    rw [tokensAll, placedAll, List.append_assoc, h.1, resume, ih h.2]
    simp [OpenElement.addChild]

/-- **An element is built from its tokens.** -/
theorem build_tokens (short : Element → Bool) (e : Element) (line : Nat)
    (stack : List OpenElement) (root : Option Element) (ts : List Token) :
    build stack root (e.tokens short line ++ ts) = resume stack root (e.placed short line) ts := by
  induction e using nested_induction generalizing line stack ts with
  | step e ih =>
    obtain ⟨tag, attrs, children, text, oldLine⟩ := e
    have hchildren := build_tokensAll fun c hc line stack ts => ih c hc line stack ts
    dsimp only at hchildren
    rw [tokens, placed]
    cases hbare : isBare short ⟨tag, attrs, children, text, oldLine⟩ with
    | true =>
      unfold isBare at hbare
      rw [Bool.and_eq_true, Bool.and_eq_true, List.isEmpty_iff, String.isEmpty_iff] at hbare
      obtain ⟨⟨-, rfl⟩, rfl⟩ := hbare
      rw [List.cons_append, build, decodeAttrs_written, placedAll]
      cases stack <;> rfl
    | false =>
      have hopen : (OpenElement.addText ⟨line, tag, attrs, [], []⟩ text.toList).tag = tag ∧
          (OpenElement.addText ⟨line, tag, attrs, [], []⟩ text.toList).children = [] := by
        unfold OpenElement.addText
        split_ifs <;> exact ⟨rfl, rfl⟩
      rw [List.cons_append, build, decodeAttrs_written]
      simp only [Bool.false_eq_true, if_false]
      rw [List.append_assoc, build_textTokens, List.append_assoc, hchildren,
        List.singleton_append, hopen.2, List.append_nil, build_closing (by exact hopen.1),
        close_addText]

end Element

/-! ### Documents -/

theorem nests_blanks {bs : List Token} (hbs : ∀ t ∈ bs, IsBlanks t) (depth : Nat) (seen : Bool)
    (ts : List Token) : nests depth seen (bs ++ ts) = nests depth seen ts := by
  induction bs with
  | nil => rfl
  | cons b bs ih =>
    obtain ⟨⟨raw, rfl, hraw⟩, hrest⟩ := List.forall_mem_cons.mp hbs
    rw [List.cons_append, nests, hraw, ih hrest, Bool.or_true, Bool.true_and]

theorem build_blanks {bs : List Token} (hbs : ∀ t ∈ bs, IsBlanks t) (root : Option Element)
    (ts : List Token) : build [] root (bs ++ ts) = build [] root ts := by
  induction bs with
  | nil => rfl
  | cons b bs ih =>
    obtain ⟨⟨raw, rfl, -⟩, hrest⟩ := List.forall_mem_cons.mp hbs
    rw [List.cons_append, build, ih hrest]

/-- **What is printed is read**, and each element has the line that it is printed on. -/
theorem parse_printAs {e : Element} (h : e.Named) (short : Element → Bool)
    (before after : List Misc) (hbefore : ∀ m ∈ before, m.Sound) (hafter : ∀ m ∈ after, m.Sound) :
    parse (String.ofList (before.flatMap Misc.print ++ (e.printAs short ++
        after.flatMap Misc.print))) =
      .ok (e.placed short (behind 1 (before.flatMap Misc.print))) := by
  obtain ⟨bs, hbs, hscan⟩ := scans_misc hbefore
    (Element.stops_printAs short e (after.flatMap Misc.print)) 1
  obtain ⟨cs, hcs, hend⟩ := scans_misc hafter (stops_nil _)
    (behind (behind 1 (before.flatMap Misc.print)) (e.printAs short))
  rw [List.append_nil] at hend
  have hroot := h.scans short (behind 1 (before.flatMap Misc.print)) (after.flatMap Misc.print)
  have htokens : scan? (before.flatMap Misc.print ++ (e.printAs short ++
      after.flatMap Misc.print)) =
        some (bs ++ (e.tokens short (behind 1 (before.flatMap Misc.print)) ++ cs)) :=
    (hscan.trans (hroot.trans hend)).tokens?_eq
  have hnests : nests 0 false
      (bs ++ (e.tokens short (behind 1 (before.flatMap Misc.print)) ++ cs)) = true := by
    rw [nests_blanks hbs, Element.nests_tokens short e _ fun _ => rfl, ← List.append_nil cs,
      nests_blanks hcs]
    rfl
  rw [parse, String.toList_ofList, htokens]
  dsimp only
  rw [if_pos hnests, build_blanks hbs, Element.build_tokens, Element.resume, ← List.append_nil cs,
    build_blanks hcs, build]

/-- **Reading undoes printing.** Let all tags and names of attributes in a tree follow the grammar;
values and texts may be any. Its canonical document, and every other one in which some elements with
nothing in them are written as one tag, is read as the same tree, but for the lines of the elements.
Blanks, comments and processing instructions before and after the root make no difference. -/
theorem parse_print {e : Element} (h : e.Named) (before after : List Misc)
    (hbefore : ∀ m ∈ before, m.Sound) (hafter : ∀ m ∈ after, m.Sound) :
    (parse (String.ofList (before.flatMap Misc.print ++ (e.print ++
        after.flatMap Misc.print)))).map Element.withoutLines = .ok e.withoutLines ∧
    ∀ short, (parse (String.ofList (before.flatMap Misc.print ++ (e.printAs short ++
        after.flatMap Misc.print)))).map Element.withoutLines = .ok e.withoutLines := by
  have hany (short : Element → Bool) : (parse (String.ofList (before.flatMap Misc.print ++
      (e.printAs short ++ after.flatMap Misc.print)))).map Element.withoutLines =
        .ok e.withoutLines := by
    rw [parse_printAs h short before after hbefore hafter]
    exact congrArg Except.ok (Element.withoutLines_placed short _ e)
  refine ⟨?_, hany⟩
  rw [← Element.printAs_never]
  exact hany _

/-- An element with all that has to be written as a reference, and a child with nothing in it. -/
def guardedElement : Element :=
  ⟨"a:b", [("v", "<\"&"), ("v", "'>\n")],
    [⟨"_c-1", [], [], "", 0⟩, ⟨"d", [], [⟨"e", [], [], "]]>", 0⟩], "\t\n", 0⟩], " x & y\u00a0", 0⟩

theorem named_guardedElement : guardedElement.Named := by
  have leaf {tag text : String} (htag : isTag tag = true) :
      (⟨tag, [], [], text, 0⟩ : Element).Named := .mk htag (by simp) (by simp)
  refine .mk (by decide) (by decide) (List.forall_mem_cons.mpr ⟨leaf (by decide), ?_⟩)
  refine List.forall_mem_singleton.mpr (.mk (by decide) (by simp) ?_)
  exact List.forall_mem_singleton.mpr (leaf (by decide))

/-- The element is read, with a comment and a processing instruction around it. -/
theorem parse_print_of_guardedElement :
    String.ofList guardedElement.print = "<a:b v=\"&lt;&quot;&amp;\" v=\"'&gt;\n\">" ++
      "&#32;x &amp; y&#160;<_c-1></_c-1><d>&#9;&#10;<e>]]&gt;</e></d></a:b>" ∧
    (parse (String.ofList ("<?xml version='1.0'?>\n<!-- -- > <a> -->".toList ++
      (guardedElement.print ++ "<!---->".toList)))).map Element.withoutLines =
        .ok guardedElement.withoutLines := by
  have hread := parse_print named_guardedElement
    [.instruction "xml version='1.0'".toList, .blanks ['\n'], .comment " -- > <a> ".toList]
    [.comment []] (by decide) (by decide)
  exact ⟨by decide +kernel, hread.1⟩

end WireSchema.Markup
