import LoxLang.Text.Utf8

/-!
# Plain text

A text without what would control a terminal: control characters, except for white space,
and the sequences that an escape character begins. It is the UTF-8 form that is read, byte
by byte.
-/

namespace LoxLang.Text.Terminal

/-- What the next byte belongs to. -/
inductive State where
  | ground
  /-- A character of several bytes, of which some are still missing. -/
  | character (missing : Nat)
  | escape
  | escapeIntermediate
  /-- A sequence that ends with its first letter. -/
  | control
  /-- A command that ends with a bell. -/
  | command
  | deviceEntry
  | deviceParameter
  | deviceIntermediate
  /-- A string that ends with the byte `0x9C`. -/
  | string
deriving DecidableEq

def isWhite (byte : UInt8) : Bool := byte = 9 || byte = 10 || byte = 12 || byte = 13

def isLead (byte : UInt8) : Bool := 0xC2 ≤ byte && byte ≤ 0xF4

/-- White space is shown in the midst of a sequence as well, but not in what is addressed to
a device. -/
def State.shows : State → UInt8 → Bool
  | ground, byte => isWhite byte || 0x20 ≤ byte && byte < 0x7F || isLead byte
  | character _, _ => true
  | escape, byte | escapeIntermediate, byte | control, byte => isWhite byte
  | _, _ => false

/-- How many bytes follow the first of a character. -/
def following (lead : UInt8) : Nat := if lead < 0xE0 then 1 else if lead < 0xF0 then 2 else 3

/-- The state behind an escape character and one more byte. -/
def escaped (byte : UInt8) : State :=
  if byte < 0x30 then .escapeIntermediate
  else if byte = '['.toUInt8 then .control
  else if byte = ']'.toUInt8 then .command
  else if byte = 'P'.toUInt8 then .deviceEntry
  else if byte = 'X'.toUInt8 || byte = '^'.toUInt8 || byte = '_'.toUInt8 then .string
  else .ground

/-- The state behind a byte. Cancelling and escaping are heeded everywhere, other controls
only where they end something, and bytes that mean nothing in a state leave it as it is. -/
def State.next (state : State) (byte : UInt8) : State :=
  let isVisible := 0x20 ≤ byte && byte < 0x7F
  let isFinal := 0x40 ≤ byte && byte < 0x7F
  match state with
  | character missing => if missing ≤ 1 then ground else character (missing - 1)
  | _ =>
    if byte = 0x18 || byte = 0x1A then ground
    else if byte = 0x1B then escape
    else
      match state with
      | ground => if isLead byte then character (following byte) else ground
      | escape => if isVisible then escaped byte else escape
      | escapeIntermediate => if isVisible && 0x30 ≤ byte then ground else escapeIntermediate
      | control => if isFinal then ground else control
      | command => if byte = 7 then ground else command
      | deviceEntry =>
        if isFinal then string
        else if isVisible then if byte < 0x30 then deviceIntermediate else deviceParameter
        else deviceEntry
      | deviceParameter =>
        if isVisible && 0x3C ≤ byte then string
        else if isVisible && byte < 0x30 then deviceIntermediate
        else deviceParameter
      | deviceIntermediate => if isVisible && 0x30 ≤ byte then string else deviceIntermediate
      | string => if byte = 0x9C then ground else string
      | character missing => character missing

/-- Behind a byte that is shown in the midst of a sequence, text is shown too, up to the next
byte that is not text. Only then the sequence goes on, unless a character of several bytes
has put an end to it. -/
def State.nextShown (state : State) (byte : UInt8) : State :=
  match state with
  | character _ => state.next byte
  | _ => if isLead byte then character (following byte) else state

/-- The bytes that are shown; `text` tells whether the one before was. -/
def shownFrom (text : Bool) (state : State) : List UInt8 → List UInt8
  | [] => []
  | byte :: bytes =>
    if state.shows byte || text && State.ground.shows byte then
      byte :: shownFrom true (state.nextShown byte) bytes
    else shownFrom false (state.next byte) bytes

def plain (text : String) : String :=
  Utf8.decode (shownFrom false .ground (Utf8.encode text))

end LoxLang.Text.Terminal
