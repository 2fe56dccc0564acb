import WireSchema.Markup.Entity

/-! # Tokens of a document

A document is a sequence of opening and closing tags, texts and raw sections; comments and
processing instructions lie between them and leave no token. `scan?` finds the tokens and fails
where the text does not follow the grammar. A `Cursor` is the rest of the text and the line it
begins on; every step leaves a shorter rest, so that scanning ends.
-/

namespace WireSchema.Markup

/-- A piece of a document. Values and texts are as written, with entity references. -/
inductive Token
  | opening (line : Nat) (tag : String) (attrs : List (String × List Char)) (empty : Bool)
  | closing (line : Nat) (tag : String)
  | text (raw : List Char)
  | raw (content : List Char)

/-- The rest of a document and the line it begins on. -/
structure Cursor where
  line : Nat
  rest : List Char

/-- The blanks of the grammar. -/
def isSpace (c : Char) : Bool := c == ' ' || c == '\t' || c == '\r' || c == '\n'

/-- A character that may begin a tag or the name of an attribute. -/
def isTagStart (c : Char) : Bool := c.isAlpha || c == '_' || c == ':'

/-- A character that may continue a tag or the name of an attribute. -/
def isTagRest (c : Char) : Bool := c.isAlphanum || c == '_' || c == ':' || c == '-' || c == '.'

/-- What follows `start` in the text, if it begins with it. -/
def after? : List Char → List Char → Option (List Char)
  | [], cs => some cs
  | _ :: _, [] => none
  | s :: ss, c :: cs => if s == c then after? ss cs else none

/-- The text before the first `stop` and the one after it. -/
def splitAt? (stop : List Char) : List Char → Option (List Char × List Char)
  | [] => (after? stop []).map fun r => ([], r)
  | c :: cs =>
    match after? stop (c :: cs) with
    | some r => some ([], r)
    | none => (splitAt? stop cs).map fun p => (c :: p.1, p.2)

theorem after?_length {start cs r : List Char} (h : after? start cs = some r) :
    r.length + start.length = cs.length := by
  induction start generalizing cs with
  | nil => simp_all [after?]
  | cons s ss ih =>
    cases cs with
    | nil => simp [after?] at h
    | cons c cs =>
      simp only [after?] at h
      split at h
      · have := ih h
        simp only [List.length_cons]
        omega
      · simp at h

theorem splitAt?_length {stop cs a r : List Char} (h : splitAt? stop cs = some (a, r)) :
    r.length + stop.length + a.length = cs.length := by
  induction cs generalizing a with
  | nil =>
    simp only [splitAt?, Option.map_eq_some_iff, Prod.mk.injEq] at h
    obtain ⟨r', h', rfl, rfl⟩ := h
    have := after?_length h'
    simpa using this
  | cons c cs ih =>
    simp only [splitAt?] at h
    split at h
    · simp only [Option.some.injEq, Prod.mk.injEq] at h
      obtain ⟨rfl, rfl⟩ := h
      next r' h' => simpa using after?_length h'
    · simp only [Option.map_eq_some_iff, Prod.exists, Prod.mk.injEq] at h
      obtain ⟨a', b', h', rfl, rfl⟩ := h
      have := ih h'
      simp only [List.length_cons]
      omega

theorem length_dropWhile_le (p : Char → Bool) (cs : List Char) :
    (cs.dropWhile p).length ≤ cs.length := by
  induction cs with
  | nil => simp
  | cons c cs ih =>
    simp only [List.dropWhile_cons]
    split
    · simp only [List.length_cons]
      omega
    · simp

namespace Cursor

/-- The cursor behind a literal without line ends. -/
def skip? (c : Cursor) (literal : String) : Option Cursor :=
  (after? literal.toList c.rest).map fun r => ⟨c.line, r⟩

/-- The longest run of characters with the property, and the cursor behind it. -/
def span (c : Cursor) (p : Char → Bool) : List Char × Cursor :=
  let run := c.rest.takeWhile p
  (run, ⟨c.line + run.count '\n', c.rest.dropWhile p⟩)

/-- The text before the first `stop`, and the cursor behind `stop`, which has no line ends. -/
def upTo? (c : Cursor) (stop : String) : Option (List Char × Cursor) :=
  (splitAt? stop.toList c.rest).map fun p => (p.1, ⟨c.line + p.1.count '\n', p.2⟩)

/-- The cursor behind any number of blanks. -/
def skipSpace (c : Cursor) : Cursor := (c.span isSpace).2

/-- A tag or the name of an attribute. -/
def name? (c : Cursor) : Option (String × Cursor) :=
  match c.rest with
  | [] => none
  | x :: _ =>
    if isTagStart x then
      let r := c.span isTagRest
      some (String.ofList r.1, r.2)
    else none

/-- A value in quotation marks of one sort. -/
def quoted? (c : Cursor) (mark : Char) : Option (List Char × Cursor) :=
  (c.skip? (String.singleton mark)).bind fun c =>
    let r := c.span fun x => x != mark && x != '<'
    (r.2.skip? (String.singleton mark)).map fun c => (r.1, c)

/-- A value in quotation marks of either sort. -/
def value? (c : Cursor) : Option (List Char × Cursor) := (c.quoted? '"').or (c.quoted? '\'')

/-- Blanks and an attribute after them. -/
def attribute? (c : Cursor) : Option ((String × List Char) × Cursor) :=
  let s := c.span isSpace
  if s.1.isEmpty then none
  else s.2.name?.bind fun n =>
    (n.2.skipSpace.skip? "=").bind fun c =>
      c.skipSpace.value?.map fun v => ((n.1, v.1), v.2)

/-! ### Every step leaves a shorter rest -/

theorem skip?_length {c c' : Cursor} {literal : String} (h : c.skip? literal = some c') :
    c'.rest.length + literal.toList.length = c.rest.length := by
  simp only [skip?, Option.map_eq_some_iff] at h
  obtain ⟨r, h, rfl⟩ := h
  exact after?_length h

theorem span_length_le (c : Cursor) (p : Char → Bool) :
    (c.span p).2.rest.length ≤ c.rest.length :=
  length_dropWhile_le p c.rest

theorem upTo?_length {c c' : Cursor} {stop : String} {a : List Char}
    (h : c.upTo? stop = some (a, c')) : c'.rest.length ≤ c.rest.length := by
  simp only [upTo?, Option.map_eq_some_iff, Prod.exists, Prod.mk.injEq] at h
  obtain ⟨a', r, h, -, rfl⟩ := h
  have := splitAt?_length h
  simp only
  omega

theorem skipSpace_length_le (c : Cursor) : c.skipSpace.rest.length ≤ c.rest.length :=
  c.span_length_le isSpace

theorem name?_length {c c' : Cursor} {n : String} (h : c.name? = some (n, c')) :
    c'.rest.length ≤ c.rest.length := by
  unfold name? at h
  split at h
  · simp at h
  · split at h
    · simp only [Option.some.injEq, Prod.mk.injEq] at h
      obtain ⟨-, rfl⟩ := h
      exact c.span_length_le _
    · simp at h

theorem quoted?_length {c c' : Cursor} {mark : Char} {v : List Char}
    (h : c.quoted? mark = some (v, c')) : c'.rest.length < c.rest.length := by
  simp only [quoted?, Option.bind_eq_some_iff, Option.map_eq_some_iff, Prod.mk.injEq] at h
  obtain ⟨c₁, h₁, c₂, h₂, -, rfl⟩ := h
  have e₁ := skip?_length h₁
  have e₂ := skip?_length h₂
  have := c₁.span_length_le fun x => x != mark && x != '<'
  simp only [String.toList_singleton, List.length_singleton] at e₁ e₂
  omega

theorem value?_length {c c' : Cursor} {v : List Char} (h : c.value? = some (v, c')) :
    c'.rest.length < c.rest.length := by
  simp only [value?, Option.or_eq_some_iff] at h
  rcases h with h | ⟨-, h⟩ <;> exact quoted?_length h

theorem attribute?_length {c c' : Cursor} {a : String × List Char}
    (h : c.attribute? = some (a, c')) : c'.rest.length < c.rest.length := by
  simp only [attribute?] at h
  split at h
  · simp at h
  · simp only [Option.bind_eq_some_iff, Option.map_eq_some_iff, Prod.mk.injEq, Prod.exists] at h
    obtain ⟨n, c₁, h₁, c₂, h₂, v, c₃, h₃, -, rfl⟩ := h
    have e₀ := c.span_length_le isSpace
    have e₁ := name?_length h₁
    have e₂ := skip?_length h₂
    have e₃ := value?_length h₃
    have e₄ := c₁.skipSpace_length_le
    have e₅ := c₂.skipSpace_length_le
    omega

/-! ### Tags and tokens -/

/-- As many attributes as follow. -/
def attributes (c : Cursor) : List (String × List Char) × Cursor :=
  match _h : c.attribute? with
  | none => ([], c)
  | some (a, c') =>
    let r := attributes c'
    (a :: r.1, r.2)
termination_by c.rest.length
decreasing_by exact attribute?_length _h

theorem attributes_length_le (c : Cursor) : c.attributes.2.rest.length ≤ c.rest.length := by
  fun_induction attributes c with
  | case1 => exact Nat.le_refl _
  | case2 c a c' h r ih =>
    have := attribute?_length h
    exact Nat.le_trans ih (Nat.le_of_lt this)

/-- The rest of an opening tag that begins on `line`, after its `<`. -/
def opening? (c : Cursor) (line : Nat) : Option (Token × Cursor) :=
  c.name?.bind fun n =>
    let r := n.2.attributes
    let c := r.2.skipSpace
    match c.skip? "/>" with
    | some c => some (.opening line n.1 r.1 true, c)
    | none => (c.skip? ">").map fun c => (.opening line n.1 r.1 false, c)

/-- The rest of a closing tag, after its `</`. -/
def closing? (c : Cursor) : Option (Token × Cursor) :=
  c.name?.bind fun n => (n.2.skipSpace.skip? ">").map fun c' => (.closing c.line n.1, c')

/-- The token that the rest begins with; a comment or processing instruction gives none. -/
def step? (c : Cursor) : Option (Option Token × Cursor) :=
  match c.skip? "<" with
  | none =>
    let r := c.span (· != '<')
    if r.1.isEmpty then none else some (some (.text r.1), r.2)
  | some inner =>
    match inner.skip? "!--" with
    | some c => (c.upTo? "-->").map fun r => (none, r.2)
    | none =>
      match inner.skip? "?" with
      | some c => (c.upTo? "?>").map fun r => (none, r.2)
      | none =>
        match inner.skip? "![CDATA[" with
        | some c => (c.upTo? "]]>").map fun r => (some (.raw r.1), r.2)
        | none =>
          match inner.skip? "/" with
          | some c => c.closing?.map fun r => (some r.1, r.2)
          | none => (inner.opening? c.line).map fun r => (some r.1, r.2)

theorem opening?_length {c c' : Cursor} {line : Nat} {t : Token}
    (h : c.opening? line = some (t, c')) : c'.rest.length ≤ c.rest.length := by
  simp only [opening?, Option.bind_eq_some_iff, Prod.exists] at h
  obtain ⟨n, c₁, h₁, h⟩ := h
  have e₁ := name?_length h₁
  have e₂ := c₁.attributes_length_le
  have e₃ := c₁.attributes.2.skipSpace_length_le
  split at h
  · next c₂ h₂ =>
    simp only [Option.some.injEq, Prod.mk.injEq] at h
    obtain ⟨-, rfl⟩ := h
    have := skip?_length h₂
    omega
  · simp only [Option.map_eq_some_iff, Prod.mk.injEq] at h
    obtain ⟨c₂, h₂, -, rfl⟩ := h
    have := skip?_length h₂
    omega

theorem closing?_length {c c' : Cursor} {t : Token} (h : c.closing? = some (t, c')) :
    c'.rest.length ≤ c.rest.length := by
  simp only [closing?, Option.bind_eq_some_iff, Prod.exists, Option.map_eq_some_iff,
    Prod.mk.injEq] at h
  obtain ⟨n, c₁, h₁, c₂, h₂, -, rfl⟩ := h
  have e₁ := name?_length h₁
  have e₂ := skip?_length h₂
  have e₃ := c₁.skipSpace_length_le
  omega

theorem step?_length {c c' : Cursor} {t : Option Token} (h : c.step? = some (t, c')) :
    c'.rest.length < c.rest.length := by
  unfold step? at h
  split at h
  · simp only at h
    split at h
    · simp at h
    · next hne =>
      simp only [Option.some.injEq, Prod.mk.injEq] at h
      obtain ⟨-, rfl⟩ := h
      have hlen : (c.rest.takeWhile (· != '<') ++ c.rest.dropWhile (· != '<')).length =
          c.rest.length := by rw [List.takeWhile_append_dropWhile]
      simp only [span, List.isEmpty_iff, ← List.length_eq_zero_iff] at hne
      simp only [List.length_append] at hlen
      simp only [span]
      omega
  · next inner hin =>
    have e₀ := skip?_length hin
    simp only [show "<".toList.length = 1 from rfl] at e₀
    split at h
    · next c₁ h₁ =>
      simp only [Option.map_eq_some_iff, Prod.mk.injEq, Prod.exists] at h
      obtain ⟨a, c₂, h₂, -, rfl⟩ := h
      have := skip?_length h₁
      have := upTo?_length h₂
      omega
    · split at h
      · next c₁ h₁ =>
        simp only [Option.map_eq_some_iff, Prod.mk.injEq, Prod.exists] at h
        obtain ⟨a, c₂, h₂, -, rfl⟩ := h
        have := skip?_length h₁
        have := upTo?_length h₂
        omega
      · split at h
        · next c₁ h₁ =>
          simp only [Option.map_eq_some_iff, Prod.mk.injEq, Prod.exists] at h
          obtain ⟨a, c₂, h₂, -, rfl⟩ := h
          have := skip?_length h₁
          have := upTo?_length h₂
          omega
        · split at h
          · next c₁ h₁ =>
            simp only [Option.map_eq_some_iff, Prod.mk.injEq, Prod.exists] at h
            obtain ⟨a, c₂, h₂, -, rfl⟩ := h
            have := skip?_length h₁
            have := closing?_length h₂
            omega
          · simp only [Option.map_eq_some_iff, Prod.mk.injEq, Prod.exists] at h
            obtain ⟨a, c₂, h₂, -, rfl⟩ := h
            have := opening?_length h₂
            omega

/-- The tokens of the rest. -/
def tokens? (c : Cursor) : Option (List Token) :=
  if c.rest.isEmpty then some []
  else match _h : c.step? with
    | none => none
    | some (none, c') => tokens? c'
    | some (some t, c') => (tokens? c').map (t :: ·)
termination_by c.rest.length
decreasing_by all_goals exact step?_length _h

end Cursor

/-- The tokens of a document. -/
def scan? (text : List Char) : Option (List Token) := Cursor.tokens? ⟨1, text⟩

end WireSchema.Markup
