import LoxLang.Text.Lines
import LoxLang.Decimal.Nearest
import LoxLang.Fault

/-!
# Scanning

A source text is cut into pieces from left to right, each the longest match at its
place: a token, a piece that is skipped, or one that is a fault. The pieces put together
give the text back, and tokens and faults are read off them.
-/

namespace LoxLang

/-- A place in a source text. -/
structure Cursor where
  offset : Nat
  line : Nat
deriving DecidableEq

namespace Cursor

def origin : Cursor := ⟨0, 1⟩

/-- The place behind the given characters. -/
def after (cursor : Cursor) (text : List Char) : Cursor :=
  ⟨cursor.offset + Text.byteLength text, cursor.line + text.count '\n'⟩

/-- The span of the given characters, which stand at `cursor`. -/
def spanOf (cursor : Cursor) (text : List Char) : Span :=
  ⟨cursor.offset, cursor.offset + Text.byteLength text, cursor.line⟩

end Cursor

namespace Scan

def isDigit (c : Char) : Bool := '0' ≤ c && c ≤ '9'

def isLetter (c : Char) : Bool := ('a' ≤ c && c ≤ 'z') || ('A' ≤ c && c ≤ 'Z') || c = '_'

def isWordChar (c : Char) : Bool := isLetter c || isDigit c

/-- What a piece of the source is. -/
inductive Shape where
  | skipped
  | token (kind : Token.Kind) (literal : Option Literal)
  | bad (issue : Issue)

/-- A match: its shape, its characters behind the first, and what follows it. -/
structure Match where
  shape : Shape
  more : List Char
  rest : List Char

/-- A match of the first character alone. -/
def one (kind : Token.Kind) (rest : List Char) : Match := ⟨.token kind none, [], rest⟩

/-- An operator that a following `=` makes longer. -/
def withEqual (short long : Token.Kind) : List Char → Match
  | '=' :: rest => ⟨.token long none, ['='], rest⟩
  | rest => one short rest

def slash : List Char → Match
  | '/' :: rest =>
    ⟨.skipped, '/' :: rest.takeWhile (· ≠ '\n'), rest.dropWhile (· ≠ '\n')⟩
  | rest => one .slash rest

/-- A string reaches to the next quote; without one it takes the rest of the source. -/
def string (input : List Char) : Match :=
  let content := input.takeWhile (· ≠ '"')
  match input.dropWhile (· ≠ '"') with
  | [] => ⟨.bad .unterminatedString, content, []⟩
  | quote :: rest =>
    ⟨.token .string (some (.string (String.ofList content))), content ++ [quote], rest⟩

/-- A number takes a point only if a digit follows it. -/
def number (first : Char) (input : List Char) : Match :=
  let whole := input.takeWhile isDigit
  let literal (fraction : List Char) : Shape :=
    .token .number (some (.number (Decimal.read (first :: whole) fraction)))
  match input.dropWhile isDigit with
  | '.' :: digit :: rest =>
    if isDigit digit then
      let fraction := digit :: rest.takeWhile isDigit
      ⟨literal fraction, whole ++ '.' :: fraction, rest.dropWhile isDigit⟩
    else ⟨literal [], whole, '.' :: digit :: rest⟩
  | rest => ⟨literal [], whole, rest⟩

def word (first : Char) (input : List Char) : Match :=
  let more := input.takeWhile isWordChar
  ⟨.token (.ofWord (String.ofList (first :: more))) none, more, input.dropWhile isWordChar⟩

/-- The match at the front of the source `first :: input`. -/
def munch (first : Char) (input : List Char) : Match :=
  match first with
  | '(' => one .leftParen input
  | ')' => one .rightParen input
  | '{' => one .leftBrace input
  | '}' => one .rightBrace input
  | ',' => one .comma input
  | '.' => one .dot input
  | '-' => one .minus input
  | '+' => one .plus input
  | ';' => one .semicolon input
  | '*' => one .star input
  | '!' => withEqual .bang .bangEqual input
  | '=' => withEqual .equal .equalEqual input
  | '<' => withEqual .less .lessEqual input
  | '>' => withEqual .greater .greaterEqual input
  | '/' => slash input
  | ' ' | '\r' | '\t' | '\n' => ⟨.skipped, [], input⟩
  | '"' => string input
  | c =>
    if isDigit c then number c input
    else if isLetter c then word c input
    else ⟨.bad (.unexpectedCharacter c), [], input⟩

theorem withEqual_partition (short long : Token.Kind) (input : List Char) :
    (withEqual short long input).more ++ (withEqual short long input).rest = input := by
  unfold withEqual
  split <;> rfl

theorem slash_partition (input : List Char) :
    (slash input).more ++ (slash input).rest = input := by
  unfold slash
  split
  · simp
  · rfl

theorem string_partition (input : List Char) :
    (string input).more ++ (string input).rest = input := by
  have whole := List.takeWhile_append_dropWhile (p := (· ≠ '"')) (l := input)
  unfold string
  split
  · next h =>
    rw [h] at whole
    exact whole
  · next h =>
    rw [h] at whole
    simpa only [List.append_assoc, List.singleton_append] using whole

theorem number_partition (first : Char) (input : List Char) :
    (number first input).more ++ (number first input).rest = input := by
  have whole := List.takeWhile_append_dropWhile (p := isDigit) (l := input)
  unfold number
  split
  · next digit rest h =>
    rw [h] at whole
    split <;> simpa using whole
  · exact whole

theorem word_partition (first : Char) (input : List Char) :
    (word first input).more ++ (word first input).rest = input :=
  List.takeWhile_append_dropWhile

/-- A match takes characters from the front and leaves the others as they are. -/
theorem munch_partition (first : Char) (input : List Char) :
    (munch first input).more ++ (munch first input).rest = input := by
  unfold munch
  split <;> try rfl
  · exact withEqual_partition ..
  · exact withEqual_partition ..
  · exact withEqual_partition ..
  · exact withEqual_partition ..
  · exact slash_partition input
  · exact string_partition input
  · split
    · exact number_partition ..
    · split
      · exact word_partition ..
      · rfl

theorem length_rest_munch_le (first : Char) (input : List Char) :
    (munch first input).rest.length ≤ input.length := by
  conv => rhs; rw [← munch_partition first input]
  simp

/-- A stretch of the source with the place where it starts. -/
structure Piece where
  start : Cursor
  text : List Char
  shape : Shape

namespace Piece

def span (piece : Piece) : Span := piece.start.spanOf piece.text

def token? (piece : Piece) : Option Token :=
  match piece.shape with
  | .token kind literal => some ⟨kind, String.ofList piece.text, literal, piece.span⟩
  | _ => none

def fault? (piece : Piece) : Option Fault :=
  match piece.shape with
  | .bad issue => some (.plain piece.span issue)
  | _ => none

end Piece

/-- The pieces of a source whose first character stands at `start`. -/
def pieces (start : Cursor) : List Char → List Piece
  | [] => []
  | first :: input =>
    let found := munch first input
    let text := first :: found.more
    ⟨start, text, found.shape⟩ :: pieces (start.after text) found.rest
termination_by input => input.length
decreasing_by exact Nat.lt_succ_of_le (length_rest_munch_le first input)

end Scan

/-- What scanning a source gives: its tokens without the mark at the end, the place of
that mark, and the faults. -/
structure Scan where
  tokens : List Token
  stop : Cursor
  faults : List Fault

namespace Scan

def ofChars (source : List Char) : Scan :=
  let found := pieces .origin source
  ⟨found.filterMap Piece.token?, Cursor.origin.after source, found.filterMap Piece.fault?⟩

def ofSource (source : String) : Scan := ofChars source.toList

def endMark (scan : Scan) : Token := .endMark (scan.stop.spanOf [])

/-- All tokens, the mark at the end included. -/
def stream (scan : Scan) : List Token := scan.tokens ++ [scan.endMark]

end Scan

end LoxLang
