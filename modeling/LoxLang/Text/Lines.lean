/-!
# Lines and columns

Byte offsets of a text counted as characters, and the line and column of a character.
A line ends after any of the terminators of Unicode, a carriage return and the line
feed behind it being one; nothing follows a terminator at the end of the text.
-/

namespace LoxLang.Text

/-- The length of the UTF-8 form in bytes. -/
def byteLength (text : List Char) : Nat := text.foldr (fun c rest => c.utf8Size + rest) 0

/-- The number of characters whose first byte lies before the given offset. -/
def charsBefore : Nat → List Char → Nat
  | _, [] => 0
  | 0, _ :: _ => 0
  | offset + 1, c :: text => charsBefore (offset + 1 - c.utf8Size) text + 1

def isLineEnd (c : Char) : Bool :=
  [0x0A, 0x0B, 0x0C, 0x0D, 0x85, 0x2028, 0x2029].contains c.toNat

/-- The lines of a text, each with its terminator. -/
def lines : List Char → List (List Char)
  | [] => []
  | '\r' :: '\n' :: text => ['\r', '\n'] :: lines text
  | c :: text =>
    if isLineEnd c then [c] :: lines text
    else
      match lines text with
      | [] => [[c]]
      | line :: rest => (c :: line) :: rest

/-- A place in a text, both numbers counted from one. -/
structure Place where
  line : Nat
  column : Nat
deriving DecidableEq

/-- The place of the character of the given index; behind the last character it is on
the last line. -/
def placeIn : List (List Char) → Nat → Place
  | [], index => ⟨1, index + 1⟩
  | [_], index => ⟨1, index + 1⟩
  | line :: next :: rest, index =>
    if index < line.length then ⟨1, index + 1⟩
    else
      let place := placeIn (next :: rest) (index - line.length)
      ⟨place.line + 1, place.column⟩

/-- The place of the character of the given index in a text. -/
def placeOf (text : List Char) (index : Nat) : Place := placeIn (lines text) index

end LoxLang.Text
