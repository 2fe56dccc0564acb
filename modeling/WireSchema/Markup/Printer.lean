import WireSchema.Markup.Element
import WireSchema.Text.Blank

/-! # Printing documents

`Element.print` writes the canonical document of an element: attributes in double quotation marks,
the text before the children, and references for the characters that mean something in a document.
Blanks at the ends of a text are written as references too, since reading takes blanks off.
-/

namespace WireSchema.Markup

/-- A character by its code point. -/
def numericReference (c : Char) : List Char := "&#".toList ++ Nat.toDigits 10 c.toNat ++ [';']

/-- A character in a value or text. -/
def printChar (c : Char) : List Char :=
  if c == '&' then "&amp;".toList
  else if c == '<' then "&lt;".toList
  else if c == '>' then "&gt;".toList
  else if c == '"' then "&quot;".toList
  else [c]

/-- A value without its quotation marks. -/
def printValue (cs : List Char) : List Char := cs.flatMap printChar

/-- A text; the blanks at its ends would be taken off. -/
def printText (cs : List Char) : List Char :=
  let leading := cs.takeWhile Text.isBlank
  let rest := cs.dropWhile Text.isBlank
  let inner := Text.trimEnd rest
  let trailing := rest.drop inner.length
  leading.flatMap numericReference ++ printValue inner ++ trailing.flatMap numericReference

/-- An attribute with the blank before it. -/
def printAttr (a : String × String) : List Char :=
  ' ' :: a.1.toList ++ ['=', '"'] ++ printValue a.2.toList ++ ['"']

namespace Element

mutual

/-- The canonical document of an element. -/
def print : Element → List Char
  | ⟨tag, attrs, children, text, _⟩ =>
    '<' :: tag.toList ++ attrs.flatMap printAttr ++ ['>'] ++ printText text.toList ++
      printAll children ++ ['<', '/'] ++ tag.toList ++ ['>']

/-- The canonical documents of elements, one after the other. -/
def printAll : List Element → List Char
  | [] => []
  | e :: es => e.print ++ printAll es

end

end Element

end WireSchema.Markup
