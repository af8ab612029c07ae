/-!
# UTF-8

Encoding is total and decoding is lossy: a maximal ill-formed subpart, that is the
longest run of bytes that begins some encoded character without completing it, or
else a single byte that begins none, becomes one replacement character. The decoder
reads one byte at a time and remembers the sequence it is inside of, so its answer
on a list of bytes follows the list.
-/

namespace LoxLang.Text.Utf8

def replacement : Char := Char.ofNat 0xFFFD

def encode (text : String) : List UInt8 := text.toList.flatMap String.utf8EncodeChar

/-- A sequence begun and not complete: `seen` bytes are read and `missing` are to come,
of which the next has to lie between `low` and `high`; `bits` is the value so far. -/
structure Pending where
  seen : Nat
  missing : Nat
  low : UInt8
  high : UInt8
  bits : Nat

/-- What the first byte of a sequence announces. -/
inductive Lead where
  | whole (c : Char)
  | opens (pending : Pending)
  | invalid

/-- The ranges of the second byte leave out overlong forms, surrogates and values
above U+10FFFF. -/
def lead (byte : UInt8) : Lead :=
  let n := byte.toNat
  if n < 0x80 then .whole (Char.ofNat n)
  else if n < 0xC2 then .invalid
  else if n < 0xE0 then .opens ⟨1, 1, 0x80, 0xBF, n - 0xC0⟩
  else if n = 0xE0 then .opens ⟨1, 2, 0xA0, 0xBF, 0⟩
  else if n = 0xED then .opens ⟨1, 2, 0x80, 0x9F, 0xD⟩
  else if n < 0xF0 then .opens ⟨1, 2, 0x80, 0xBF, n - 0xE0⟩
  else if n = 0xF0 then .opens ⟨1, 3, 0x90, 0xBF, 0⟩
  else if n < 0xF4 then .opens ⟨1, 3, 0x80, 0xBF, n - 0xF0⟩
  else if n = 0xF4 then .opens ⟨1, 3, 0x80, 0x8F, 4⟩
  else .invalid

namespace Pending

def accepts (pending : Pending) (byte : UInt8) : Bool :=
  pending.low ≤ byte && byte ≤ pending.high

def push (pending : Pending) (byte : UInt8) : Pending :=
  ⟨pending.seen + 1, pending.missing - 1, 0x80, 0xBF, 64 * pending.bits + (byte.toNat - 0x80)⟩

end Pending

/-- The characters that a byte outside of any sequence gives, and the sequence it opens. -/
def begin (byte : UInt8) : List Char × Option Pending :=
  match lead byte with
  | .whole c => ([c], none)
  | .opens pending => ([], some pending)
  | .invalid => ([replacement], none)

/-- The characters that a byte gives behind the sequence that is open, if one is, and the
sequence open after it. -/
def step : Option Pending → UInt8 → List Char × Option Pending
  | none, byte => begin byte
  | some pending, byte =>
    if pending.accepts byte then
      let next := pending.push byte
      if next.missing = 0 then ([Char.ofNat next.bits], none) else ([], some next)
    else (replacement :: (begin byte).1, (begin byte).2)

def decodeFrom : Option Pending → List UInt8 → List Char
  | none, [] => []
  | some _, [] => [replacement]
  | state, byte :: bytes => (step state byte).1 ++ decodeFrom (step state byte).2 bytes

def decode (bytes : List UInt8) : String := String.ofList (decodeFrom none bytes)

/-- The first ill-formed subpart: where it starts and how many bytes it has, with no
length when the input ends inside a sequence that was well formed so far. -/
structure Flaw where
  index : Nat
  length : Option Nat
deriving DecidableEq

/-- The first flaw of bytes of which the first stands at `index`. -/
def flawFrom (index : Nat) : Option Pending → List UInt8 → Option Flaw
  | none, [] => none
  | some pending, [] => some ⟨index - pending.seen, none⟩
  | none, byte :: bytes =>
    match lead byte with
    | .whole _ => flawFrom (index + 1) none bytes
    | .opens pending => flawFrom (index + 1) (some pending) bytes
    | .invalid => some ⟨index, some 1⟩
  | some pending, byte :: bytes =>
    if pending.accepts byte then
      let next := pending.push byte
      flawFrom (index + 1) (if next.missing = 0 then none else some next) bytes
    else some ⟨index - pending.seen, some pending.seen⟩

def flaw? (bytes : List UInt8) : Option Flaw := flawFrom 0 none bytes

def Flaw.message (flaw : Flaw) : String :=
  match flaw.length with
  | some length => s!"invalid utf-8 sequence of {length} bytes from index {flaw.index}"
  | none => s!"incomplete utf-8 byte sequence from index {flaw.index}"

end LoxLang.Text.Utf8
