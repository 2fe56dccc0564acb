import WireSchema.Literal.Integer
import WireSchema.Markup.Fault

/-! # Entity references

`&name;` stands for a character: five names are known, and `&#N;` and `&#xH;` give a code point in
decimal and hexadecimal. Every ampersand begins a reference, and a reference ends at the next
semicolon.
-/

namespace WireSchema.Markup

/-- The character with the code point, if there is one. -/
def scalar? (n : Nat) : Option Char :=
  if h : n.isValidChar then some (Char.ofNatAux n h) else none

/-- The character that the text between `&` and `;` stands for. -/
def entity? (name : List Char) : Option Char :=
  match name with
  | '#' :: 'x' :: digits => (Literal.natural? 16 digits).bind scalar?
  | '#' :: 'X' :: digits => (Literal.natural? 16 digits).bind scalar?
  | '#' :: digits => (Literal.natural? 10 digits).bind scalar?
  | _ =>
    match String.ofList name with
    | "lt" => some '<'
    | "gt" => some '>'
    | "amp" => some '&'
    | "quot" => some '"'
    | "apos" => some '\''
    | _ => none

/-- Decodes the rest of `whole`. Inside a reference, `pending` holds its characters so far, the last
one first. -/
def decodeFrom (whole : List Char) : Option (List Char) → List Char → Except Fault (List Char)
  | none, [] => .ok []
  | some _, [] => .error (.unterminatedEntity (String.ofList whole))
  | none, c :: cs =>
    if c == '&' then decodeFrom whole (some []) cs
    else (decodeFrom whole none cs).map (c :: ·)
  | some pending, c :: cs =>
    if c == ';' then
      match entity? pending.reverse with
      | some x => (decodeFrom whole none cs).map (x :: ·)
      | none => .error (.unknownEntity (String.ofList pending.reverse))
    else decodeFrom whole (some (c :: pending)) cs

/-- The text with its references replaced. -/
def decode (cs : List Char) : Except Fault (List Char) := decodeFrom cs none cs

end WireSchema.Markup
