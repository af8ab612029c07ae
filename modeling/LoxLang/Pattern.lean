import LoxLang.Text.Blank

/-!
# Patterns

Regular expressions over characters, with anchors that look at the characters around a
place. A text is searched by stepping: what is left of a pattern behind one character is a
list of patterns, any of which may go on.
-/

namespace LoxLang

/-- A set of characters. A range may be told to hold the other case of its ASCII letters. -/
inductive CharSet where
  | none
  | range (low high : Char) (anyCase : Bool)
  | blank
  | union (first second : CharSet)
  | inter (first second : CharSet)
  | complement (inner : CharSet)
deriving DecidableEq

namespace CharSet

def contains : CharSet → Char → Bool
  | none, _ => false
  | range low high anyCase, c =>
    let holds (c : Char) : Bool := low ≤ c && c ≤ high
    holds c || anyCase && (holds c.toLower || holds c.toUpper)
  | blank, c => Text.isBlankChar c
  | union first second, c => first.contains c || second.contains c
  | inter first second, c => first.contains c && second.contains c
  | complement inner, c => !inner.contains c

def single (c : Char) : CharSet := range c c false

def all : CharSet := complement none

def ofRanges (ranges : List (Char × Char)) : CharSet :=
  ranges.foldr (fun ends rest => union (range ends.1 ends.2 false) rest) none

def digit : CharSet := range '0' '9' false

def word : CharSet := ofRanges [('0', '9'), ('A', 'Z'), ('_', '_'), ('a', 'z')]

/-- The set with all its ranges told to hold both cases. -/
def inAnyCase : CharSet → CharSet
  | range low high _ => range low high true
  | union first second => union first.inAnyCase second.inAnyCase
  | inter first second => inter first.inAnyCase second.inAnyCase
  | complement inner => complement inner.inAnyCase
  | set => set

end CharSet

/-- A condition on the characters before and behind a place. -/
inductive Anchor where
  | textStart
  | textEnd
  | lineStart
  | lineEnd
  | wordEdge
  | noWordEdge
  | wordStart
  | wordEnd
  | noWordBefore
  | noWordBehind
deriving DecidableEq

def Anchor.holds (before behind : Option Char) : Anchor → Bool
  | textStart => before.isNone
  | textEnd => behind.isNone
  | lineStart => before.all (· = '\n')
  | lineEnd => behind.all (· = '\n')
  | wordEdge => before.any CharSet.word.contains != behind.any CharSet.word.contains
  | noWordEdge => before.any CharSet.word.contains == behind.any CharSet.word.contains
  | wordStart => !before.any CharSet.word.contains && behind.any CharSet.word.contains
  | wordEnd => before.any CharSet.word.contains && !behind.any CharSet.word.contains
  | noWordBefore => !before.any CharSet.word.contains
  | noWordBehind => !behind.any CharSet.word.contains

inductive Pattern where
  | empty
  | char (set : CharSet)
  | look (anchor : Anchor)
  | seq (first second : Pattern)
  | either (first second : Pattern)
  /-- From `low` to `high` times, or any number from `low` on. -/
  | times (body : Pattern) (low : Nat) (high : Option Nat)
deriving DecidableEq

namespace Pattern

/-- One pattern behind another. -/
def andThen : Pattern → Pattern → Pattern
  | empty, second => second
  | first, empty => first
  | first, second => seq first second

def concat (patterns : List Pattern) : Pattern := patterns.foldr andThen empty

/-- Whether the pattern matches between two characters without taking any. -/
def matchesEmpty (before behind : Option Char) : Pattern → Bool
  | empty => true
  | char _ => false
  | look anchor => anchor.holds before behind
  | seq first second => first.matchesEmpty before behind && second.matchesEmpty before behind
  | either first second => first.matchesEmpty before behind || second.matchesEmpty before behind
  | times body low _ => low = 0 || body.matchesEmpty before behind

/-- What may be left of the pattern when it takes a character that follows `before`. If the
body of a repetition takes nothing here, all the rounds still due may do so. -/
def step (before : Option Char) (c : Char) : Pattern → List Pattern
  | empty => []
  | char set => if set.contains c then [empty] else []
  | look _ => []
  | seq first second =>
    (first.step before c).map (andThen · second) ++
      if first.matchesEmpty before (some c) then second.step before c else []
  | either first second => first.step before c ++ second.step before c
  | times body low high =>
    if high = some 0 then []
    else
      let due := if body.matchesEmpty before (some c) then 0 else low - 1
      (body.step before c).map (andThen · (times body due (high.map (· - 1))))

/-- Whether the pattern, begun anew at any place of the text, or one of those begun before it
matches. -/
def foundFrom (pattern : Pattern) (begun : List Pattern) (before : Option Char) :
    List Char → Bool
  | [] => (pattern :: begun).any (matchesEmpty before none)
  | c :: text =>
    (pattern :: begun).any (matchesEmpty before (some c)) ||
      pattern.foundFrom (((pattern :: begun).flatMap (step before c)).eraseDups) (some c) text

/-- Whether the pattern matches some part of the text. -/
def found (pattern : Pattern) (text : String) : Bool := pattern.foundFrom [] none text.toList

end Pattern

end LoxLang
