import LoxLang.Pattern

/-!
# Reading patterns

The text form of a pattern is read from left to right. A flaw ends the reading; it is told
with the columns at fault marked below the text.
-/

namespace LoxLang.Pattern

/-- Columns, from `start` up to `stop`. -/
structure Extent where
  start : Nat
  stop : Nat
deriving DecidableEq

inductive Mistake where
  | unclosedClass
  | classEscape
  | classBoundary
  | classRange
  | unclosedGroup
  | unopenedGroup
  | unclosedName
  | emptyName
  | nameCharacter
  | nameAgain
  | unclosedFlags
  | unknownFlag
  | flagAgain
  | negationAgain
  | negationOfNothing
  | nothingToRepeat
  | unclosedCount
  | noCount
  | countTooLarge
  | countRange
  | escapeCut
  | unknownEscape
  | emptyHex
  | hexDigit
  | hexValue
  | unknownProperty
  | backreference
  | lookAround
  | wordEdgeCut
  | unclosedWordEdge
  | unknownWordEdge
deriving DecidableEq

def Mistake.message : Mistake → String
  | unclosedClass => "unclosed character class"
  | classEscape => "invalid escape sequence found in character class"
  | classBoundary => "invalid range boundary, must be a literal"
  | classRange => "invalid character class range, the start must be <= the end"
  | unclosedGroup => "unclosed group"
  | unopenedGroup => "unopened group"
  | unclosedName => "unclosed capture group name"
  | emptyName => "empty capture group name"
  | nameCharacter => "invalid capture group character"
  | nameAgain => "duplicate capture group name"
  | unclosedFlags => "expected flag but got end of regex"
  | unknownFlag => "unrecognized flag"
  | flagAgain => "duplicate flag"
  | negationAgain => "flag negation operator repeated"
  | negationOfNothing => "dangling flag negation operator"
  | nothingToRepeat => "repetition operator missing expression"
  | unclosedCount => "unclosed counted repetition"
  | noCount => "repetition quantifier expects a valid decimal"
  | countTooLarge => "decimal literal invalid"
  | countRange => "invalid repetition count range, the start must be <= the end"
  | escapeCut => "incomplete escape sequence, reached end of pattern prematurely"
  | unknownEscape => "unrecognized escape sequence"
  | emptyHex => "hexadecimal literal empty"
  | hexDigit => "invalid hexadecimal digit"
  | hexValue => "hexadecimal literal is not a Unicode scalar value"
  | unknownProperty => "Unicode property not found"
  | backreference => "backreferences are not supported"
  | lookAround => "look-around, including look-ahead and look-behind, is not supported"
  | wordEdgeCut =>
    "found either the beginning of a special word boundary or a bounded repetition on a \\b " ++
      "with an opening brace, but no closing brace"
  | unclosedWordEdge =>
    "special word boundary assertion is either unclosed or contains an invalid character"
  | unknownWordEdge =>
    "unrecognized special word boundary assertion, valid choices are: start, end, " ++
      "start-half or end-half"

/-- A mistake, where it lies, and where what it repeats lies. -/
structure Flaw where
  mistake : Mistake
  extent : Extent
  earlier : Option Extent := none
deriving DecidableEq

/-- Carets below the columns of the extents, at least one for each. -/
def marks (extents : List Extent) : String :=
  let covers (column : Nat) (extent : Extent) : Bool :=
    extent.start ≤ column && column < max extent.stop (extent.start + 1)
  let width := extents.foldl (fun width extent => max width (max extent.stop (extent.start + 1))) 0
  String.ofList ((List.range width).map fun column =>
    if extents.any (covers column) then '^' else ' ')

def Flaw.message (text : String) (flaw : Flaw) : String :=
  let marked := marks (flaw.extent :: flaw.earlier.toList)
  s!"regex parse error:\n    {text}\n    {marked}\nerror: {flaw.mistake.message}"

/-- The text that is left, and the column of its first character. -/
structure Cursor where
  column : Nat
  rest : List Char

abbrev Reader := StateT Cursor (Except Flaw)

namespace Reader

variable {α : Type}

def column : Reader Nat := return (← get).column

def next? : Reader (Option Char) := return (← get).rest.head?

def skip (count : Nat) : Reader Unit :=
  modify fun cursor => ⟨cursor.column + count, cursor.rest.drop count⟩

/-- Takes the characters up to the first that does not fit. -/
def takeWhile (fits : Char → Bool) : Reader (List Char) := do
  let taken := (← get).rest.takeWhile fits
  skip taken.length
  return taken

/-- Takes the given text if it comes next. -/
def accept (text : String) : Reader Bool := do
  if text.toList.isPrefixOf (← get).rest then
    skip text.length
    return true
  else return false

/-- Takes the first of the given texts that comes next. -/
def acceptAny : List String → Reader Bool
  | [] => return false
  | text :: others => do
    if ← accept text then return true
    acceptAny others

def fail (mistake : Mistake) (start stop : Nat) : Reader α := throw ⟨mistake, ⟨start, stop⟩, none⟩

/-- The mistake reaches up to the next character. -/
def failFrom (mistake : Mistake) (start : Nat) : Reader α := do fail mistake start (← column)

/-- The mistake lies at the next character, or where one is missing. -/
def failHere (mistake : Mistake) : Reader α := do fail mistake (← column) (← column)

end Reader

open Reader

/-! ## Escapes -/

/-- What an escape stands for. -/
inductive Atom where
  | literal (c : Char)
  | set (set : CharSet)
  | look (anchor : Anchor)

def hexDigit? (c : Char) : Option Nat :=
  if c.isDigit then some (c.toNat - '0'.toNat)
  else if 'a' ≤ c && c ≤ 'f' then some (c.toNat - 'a'.toNat + 10)
  else if 'A' ≤ c && c ≤ 'F' then some (c.toNat - 'A'.toNat + 10)
  else none

def readHex (digits : List Char) : Nat :=
  digits.foldl (fun value c => 16 * value + (hexDigit? c).getD 0) 0

/-- The character of a code point, the digits of which lie between `start` and `stop`. -/
def charOf (digits : List Char) (start stop : Nat) : Reader Atom :=
  let code := readHex digits
  if code.isValidChar then return .literal (Char.ofNat code) else fail .hexValue start stop

/-- A code point of a fixed number of digits. -/
def fixedHex (count : Nat) : Reader Atom := do
  let start ← column
  let digits := ((← get).rest.take count).takeWhile fun c => (hexDigit? c).isSome
  skip digits.length
  if digits.length < count then failHere (if (← next?).isNone then .escapeCut else .hexDigit)
  charOf digits start (← column)

/-- A code point in braces. -/
def bracedHex : Reader Atom := do
  let start ← column
  skip 1
  let digits ← takeWhile fun c => (hexDigit? c).isSome
  let stop ← column
  match ← next? with
  | none => failFrom .escapeCut start
  | some '\x7d' =>
    skip 1
    if digits.isEmpty then failFrom .emptyHex start
    charOf digits (start + 1) stop
  | some _ => failHere .hexDigit

def hex (count : Nat) : Reader Atom := do
  if (← next?) = some '\x7b' then bracedHex else fixedHex count

/-- No property is known by name. -/
def property (start : Nat) : Reader Atom := do
  if (← next?) = some '\x7b' then
    let _ ← takeWhile (· ≠ '\x7d')
  if (← next?).isNone then failHere .escapeCut
  skip 1
  failFrom .unknownProperty start

def wordEdgeNamed? : String → Option Anchor
  | "start" => some .wordStart
  | "end" => some .wordEnd
  | "start-half" => some .noWordBefore
  | "end-half" => some .noWordBehind
  | _ => none

/-- The edge of a word, of the kind named in braces if a name follows in braces. -/
def wordEdge (start : Nat) : Reader Atom := do
  let isNameChar (c : Char) : Bool := c.isAlpha || c = '-'
  match (← get).rest with
  | '\x7b' :: rest =>
    let brace ← column
    if rest.isEmpty then fail .wordEdgeCut start (brace + 1)
    if !rest.head?.any isNameChar then return .look .wordEdge
    skip 1
    let name ← takeWhile isNameChar
    if (← next?) ≠ some '\x7d' then failFrom .unclosedWordEdge brace
    match wordEdgeNamed? (String.ofList name) with
    | some anchor =>
      skip 1
      return .look anchor
    | none => failFrom .unknownWordEdge (brace + 1)
  | _ => return .look .wordEdge

/-- Reads an escape, which starts with a backslash. -/
def escape : Reader Atom := do
  let start ← column
  skip 1
  let some c ← next? | failFrom .escapeCut start
  skip 1
  match c with
  | 'x' => hex 2
  | 'u' => hex 4
  | 'U' => hex 8
  | 'p' | 'P' => property start
  | 'd' => return .set .digit
  | 'D' => return .set (.complement .digit)
  | 's' => return .set .blank
  | 'S' => return .set (.complement .blank)
  | 'w' => return .set .word
  | 'W' => return .set (.complement .word)
  | 'a' => return .literal '\x07'
  | 'f' => return .literal '\x0c'
  | 't' => return .literal '\t'
  | 'n' => return .literal '\n'
  | 'r' => return .literal '\r'
  | 'v' => return .literal '\x0b'
  | 'A' => return .look .textStart
  | 'z' => return .look .textEnd
  | 'b' => wordEdge start
  | 'B' => return .look .noWordEdge
  | '<' => return .look .wordStart
  | '>' => return .look .wordEnd
  | c =>
    if c.isDigit then failFrom .backreference start
    else if c.toNat < 128 && !c.isAlpha then return .literal c
    else failFrom .unknownEscape start

/-! ## Classes -/

/-- Sets with names, to be used within a class as in `[:digit:]`. -/
def namedSets : List (String × List (Char × Char)) :=
  [("alnum", [('0', '9'), ('A', 'Z'), ('a', 'z')]), ("alpha", [('A', 'Z'), ('a', 'z')]),
    ("ascii", [('\x00', '\x7f')]), ("blank", [('\t', '\t'), (' ', ' ')]),
    ("cntrl", [('\x00', '\x1f'), ('\x7f', '\x7f')]), ("digit", [('0', '9')]),
    ("graph", [('!', '~')]), ("lower", [('a', 'z')]), ("print", [(' ', '~')]),
    ("punct", [('!', '/'), (':', '@'), ('[', '\x60'), ('\x7b', '~')]),
    ("space", [('\t', '\r'), (' ', ' ')]), ("upper", [('A', 'Z')]),
    ("word", [('0', '9'), ('A', 'Z'), ('_', '_'), ('a', 'z')]),
    ("xdigit", [('0', '9'), ('A', 'F'), ('a', 'f')])]

/-- Takes a named set if one comes next. -/
def namedSet? : List (String × List (Char × Char)) → Reader (Option CharSet)
  | [] => return none
  | (name, ranges) :: others => do
    if ← accept s!"[:{name}:]" then return some (.ofRanges ranges)
    if ← accept s!"[:^{name}:]" then return some (.complement (.ofRanges ranges))
    namedSet? others

/-- A class that was begun: the columns of its beginning, whether it is negated, and the
dashes and the bracket that stand for themselves in front. -/
structure ClassStart where
  extent : Extent
  negated : Bool
  first : CharSet

def classStart : Reader ClassStart := do
  let start ← column
  skip 1
  if (← next?).isNone then failFrom .unclosedClass start
  let negated ← accept "^"
  if (← next?).isNone then failFrom .unclosedClass start
  let dashes ← takeWhile (· = '-')
  if (← next?).isNone then fail .unclosedClass start start
  let bracket ← if dashes.isEmpty then accept "]" else pure false
  if (← next?).isNone then failFrom .unclosedClass start
  let first : CharSet :=
    if bracket then .single ']' else if dashes.isEmpty then .none else .single '-'
  return ⟨⟨start, ← column⟩, negated, first⟩

def classAtom : Reader Atom := do
  match ← next? with
  | some '\\' => escape
  | some c =>
    skip 1
    return .literal c
  | none => failHere .unclosedClass

/-- A member of the class that began at `opened`, or a range of members. -/
def classItem (opened : Extent) : Reader CharSet := do
  let start ← column
  let first ← classAtom
  let stop ← column
  let alone : Reader CharSet :=
    match first with
    | .literal c => return .single c
    | .set set => return set
    | .look _ => fail .classEscape start stop
  match (← get).rest with
  | [] | ['-'] => fail .unclosedClass opened.start opened.stop
  | '-' :: ']' :: _ | '-' :: '-' :: _ => alone
  | '-' :: _ =>
    skip 1
    let second ← classAtom
    match first, second with
    | .literal low, .literal high =>
      if high < low then failFrom .classRange start
      return .range low high false
    | .literal _, _ => failFrom .classBoundary (stop + 1)
    | _, _ => fail .classBoundary start stop
  | _ => alone

/-- Reads the rest of the class that began at `opened`. The members read so far are `found`,
and `finish` puts them together with what stood before the last operator. Each round takes
some of the text, so a bound as large as the text is never reached. -/
def classRest : Nat → Extent → (CharSet → CharSet) → CharSet → Reader CharSet
  | 0, opened, _, _ => fail .unclosedClass opened.start opened.stop
  | bound + 1, opened, finish, found => do
    match (← get).rest with
    | [] => fail .unclosedClass opened.start opened.stop
    | ']' :: _ =>
      skip 1
      return finish found
    | '[' :: _ =>
      match ← namedSet? namedSets with
      | some set => classRest bound opened finish (.union found set)
      | none =>
        let inner ← classStart
        let set ← classRest bound inner.extent id inner.first
        let set := if inner.negated then .complement set else set
        classRest bound opened finish (.union found set)
    | '&' :: '&' :: _ =>
      skip 2
      classRest bound opened (.inter (finish found)) .none
    | '-' :: '-' :: _ =>
      skip 2
      classRest bound opened (fun set => .inter (finish found) (.complement set)) .none
    | '~' :: '~' :: _ =>
      skip 2
      let both := finish found
      classRest bound opened
        (fun set => .inter (.union both set) (.complement (.inter both set))) .none
    | _ =>
      let item ← classItem opened
      classRest bound opened finish (.union found item)

def readClass : Reader CharSet := do
  let start ← classStart
  let set ← classRest ((← get).rest.length + 1) start.extent id start.first
  return if start.negated then .complement set else set

/-! ## Flags and repetitions -/

structure Flags where
  anyCase : Bool := false
  lines : Bool := false
  dotAll : Bool := false
  spaced : Bool := false

/-- Sets a flag. Some flags are known and have no effect on what is found. -/
def Flags.set? (flags : Flags) (on : Bool) : Char → Option Flags
  | 'i' => some { flags with anyCase := on }
  | 'm' => some { flags with lines := on }
  | 's' => some { flags with dotAll := on }
  | 'x' => some { flags with spaced := on }
  | 'U' | 'u' | 'R' => some flags
  | _ => none

/-- Reads flags up to a colon or a closing parenthesis. The signs read so far are given with
their columns, the last of them first. -/
def readFlags : Nat → List (Char × Nat) → Flags → Reader Flags
  | 0, _, _ => failHere .unclosedFlags
  | bound + 1, seen, flags => do
    let here ← column
    let again (mistake : Mistake) (earlier : Nat) : Reader Flags :=
      throw ⟨mistake, ⟨here, here + 1⟩, some ⟨earlier, earlier + 1⟩⟩
    match ← next?, seen with
    | none, _ => failHere .unclosedFlags
    | some ':', ('-', sign) :: _ | some ')', ('-', sign) :: _ =>
      fail .negationOfNothing sign (sign + 1)
    | some ':', _ | some ')', _ => return flags
    | some '-', _ =>
      match seen.lookup '-' with
      | some earlier => again .negationAgain earlier
      | none =>
        skip 1
        readFlags bound (('-', here) :: seen) flags
    | some c, _ =>
      match flags.set? (seen.lookup '-').isNone c, seen.lookup c with
      | none, _ => failHere .unknownFlag
      | some _, some earlier => again .flagAgain earlier
      | some flags, none =>
        skip 1
        readFlags bound ((c, here) :: seen) flags

def maxCount : Nat := 4294967295

/-- Reads a number between blanks. What is wrong with it is told when it is used. -/
def readCount : Reader (Except Flaw Nat) := do
  let _ ← takeWhile Text.isBlankChar
  let start ← column
  let digits ← takeWhile Char.isDigit
  let extent : Extent := ⟨start, ← column⟩
  let _ ← takeWhile Text.isBlankChar
  let count := digits.foldl (fun count c => 10 * count + (c.toNat - '0'.toNat)) 0
  if digits.isEmpty then return .error ⟨.noCount, extent, none⟩
  else if maxCount < count then return .error ⟨.countTooLarge, extent, none⟩
  else return .ok count

/-- Reads how often something may be repeated, in braces. -/
def readCounts : Reader (Nat × Option Nat) := do
  let start ← column
  skip 1
  if (← next?).isNone then failFrom .unclosedCount start
  let low ← readCount
  if (← next?).isNone then failFrom .unclosedCount start
  let (low, high) ←
    if ← accept "," then
      match ← next? with
      | none => failFrom .unclosedCount start
      | some '\x7d' => pure (← liftExcept low, none)
      | some _ =>
        let low ← liftExcept low
        let high ← liftExcept (← readCount)
        pure (low, some high)
    else
      let low ← liftExcept low
      pure (low, some low)
  if !(← accept "\x7d") then failFrom .unclosedCount start
  let _ ← accept "?"
  if high.any (· < low) then failFrom .countRange start
  return (low, high)
where
  liftExcept (count : Except Flaw Nat) : Reader Nat :=
    match count with
    | .ok count => return count
    | .error flaw => throw flaw

/-! ## Patterns -/

/-- A group that is open, or else the whole pattern: the flags in force, the alternatives
that are complete, and what was read of the last one, in reverse. A setting of flags keeps a
place there, because it cannot be repeated. -/
structure Group where
  opened : Nat := 0
  flags : Flags := {}
  alternatives : List Pattern := []
  items : List (Option Pattern) := []

namespace Group

def sequence (group : Group) : Pattern := concat (group.items.reverse.filterMap id)

def pattern (group : Group) : Pattern :=
  group.alternatives.foldl (fun last first => either first last) group.sequence

def add (group : Group) (pattern : Pattern) : Group :=
  { group with items := some pattern :: group.items }

def addSet (group : Group) (set : CharSet) : Group :=
  group.add (char (if group.flags.anyCase then set.inAnyCase else set))

def addAtom (group : Group) : Atom → Group
  | .literal c => group.addSet (.single c)
  | .set set => group.addSet set
  | .look anchor => group.add (look anchor)

end Group

/-- The groups that are open, the innermost first, and the names given to groups. -/
structure Builder where
  group : Group := {}
  outer : List Group := []
  names : List (String × Extent) := []

namespace Builder

def inGroup (builder : Builder) (change : Group → Group) : Builder :=
  { builder with group := change builder.group }

def opening (builder : Builder) (column : Nat) (flags : Flags) : Builder :=
  { builder with
    group := { opened := column, flags := flags }
    outer := builder.group :: builder.outer }

/-- Reads the name of a group. -/
def named (builder : Builder) : Reader Builder := do
  let start ← column
  let isLetter (c : Char) : Bool := c = '_' || c.isAlpha || 128 ≤ c.toNat
  let isNext (c : Char) : Bool := isLetter c || c.isDigit || c = '.' || c = '[' || c = ']'
  let rest := (← get).rest
  let name := if rest.head?.any isLetter then rest.takeWhile isNext else []
  skip name.length
  let extent : Extent := ⟨start, ← column⟩
  match ← next? with
  | none => failHere .unclosedName
  | some '>' =>
    skip 1
    if name.isEmpty then fail .emptyName start start
    match builder.names.lookup (String.ofList name) with
    | some earlier => throw ⟨.nameAgain, extent, some earlier⟩
    | none => return { builder with names := (String.ofList name, extent) :: builder.names }
  | some _ => do fail .nameCharacter (← column) ((← column) + 1)

/-- Reads the beginning of a group, or a setting of flags. -/
def openGroup (builder : Builder) : Reader Builder := do
  let start ← column
  let flags := builder.group.flags
  skip 1
  if ← acceptAny ["?=", "?!", "?<=", "?<!"] then failFrom .lookAround start
  let mark ← column
  if ← acceptAny ["?P<", "?<"] then return (← builder.named).opening start flags
  if !(← accept "?") then return builder.opening start flags
  let some first ← next? | fail .unclosedGroup start (start + 1)
  let changed ← readFlags ((← get).rest.length + 1) [] flags
  if ← accept ":" then return builder.opening start changed
  skip 1
  if first = ')' then fail .nothingToRepeat mark mark
  return builder.inGroup fun group => { group with flags := changed, items := none :: group.items }

def closeGroup (builder : Builder) : Reader Builder := do
  match builder.outer with
  | [] => failHere .unopenedGroup
  | outer :: others =>
    skip 1
    return { builder with group := outer.add builder.group.pattern, outer := others }

/-- Reads how often the last item is to be repeated. -/
def repetition (builder : Builder) (counts : Reader (Nat × Option Nat)) : Reader Builder := do
  match builder.group.items with
  | some body :: items =>
    let (low, high) ← counts
    return builder.inGroup fun group => { group with items := some (times body low high) :: items }
  | _ => failHere .nothingToRepeat

/-- A sign of repetition, and the sign that asks for as little of it as possible, which makes
no difference to what is found. -/
def repeating (builder : Builder) (low : Nat) (high : Option Nat) : Reader Builder :=
  builder.repetition do
    skip 1
    let _ ← accept "?"
    return (low, high)

def addTaken (builder : Builder) (pattern : Flags → Pattern) : Reader Builder := do
  skip 1
  return builder.inGroup fun group => group.add (pattern group.flags)

/-- Takes one item, which starts with the given character. -/
def take (builder : Builder) : Char → Reader Builder
  | '(' => builder.openGroup
  | ')' => builder.closeGroup
  | '|' => do
    skip 1
    return builder.inGroup fun group =>
      { group with alternatives := group.sequence :: group.alternatives, items := [] }
  | '[' => return builder.inGroup (·.addSet (← readClass))
  | '?' => builder.repeating 0 (some 1)
  | '*' => builder.repeating 0 none
  | '+' => builder.repeating 1 none
  | '\x7b' => builder.repetition readCounts
  | '\\' => return builder.inGroup (·.addAtom (← escape))
  | '.' => builder.addTaken fun flags =>
    char (if flags.dotAll then .all else .complement (.single '\n'))
  | '^' => builder.addTaken fun flags => look (if flags.lines then .lineStart else .textStart)
  | '$' => builder.addTaken fun flags => look (if flags.lines then .lineEnd else .textEnd)
  | c => do
    skip 1
    if builder.group.flags.spaced && Text.isBlankChar c then return builder
    return builder.inGroup (·.addSet (.single c))

/-- Reads items up to the end of the text. Each takes some of it, so a bound as large as the
text is never reached. -/
def readAll : Nat → Builder → Reader Pattern
  | 0, builder => return builder.group.pattern
  | bound + 1, builder => do
    match ← next?, builder.outer with
    | none, [] => return builder.group.pattern
    | none, _ :: _ => fail .unclosedGroup builder.group.opened (builder.group.opened + 1)
    | some c, _ => readAll bound (← builder.take c)

end Builder

/-- The pattern of a text. -/
def read (text : String) : Except Flaw Pattern :=
  (·.1) <$> (Builder.readAll (text.length + 1) {}).run ⟨0, text.toList⟩

end LoxLang.Pattern
