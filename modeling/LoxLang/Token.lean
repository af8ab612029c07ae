import LoxLang.Span
import LoxLang.Decimal.Shortest

/-!
# Tokens

The words of a source text: their kinds, the literals that some of them carry, and the
form in which a token is listed.
-/

namespace LoxLang

inductive Token.Kind where
  | leftParen | rightParen | leftBrace | rightBrace
  | comma | dot | minus | plus | semicolon | slash | star
  | bang | bangEqual | equal | equalEqual | greater | greaterEqual | less | lessEqual
  | identifier | string | number
  | kwAnd | kwClass | kwElse | kwFalse | kwFun | kwFor | kwIf | kwNil | kwOr | kwPrint
  | kwReturn | kwSuper | kwThis | kwTrue | kwVar | kwWhile
  | eof
deriving DecidableEq

namespace Token.Kind

def name : Kind → String
  | leftParen => "LEFT_PAREN"
  | rightParen => "RIGHT_PAREN"
  | leftBrace => "LEFT_BRACE"
  | rightBrace => "RIGHT_BRACE"
  | comma => "COMMA"
  | dot => "DOT"
  | minus => "MINUS"
  | plus => "PLUS"
  | semicolon => "SEMICOLON"
  | slash => "SLASH"
  | star => "STAR"
  | bang => "BANG"
  | bangEqual => "BANG_EQUAL"
  | equal => "EQUAL"
  | equalEqual => "EQUAL_EQUAL"
  | greater => "GREATER"
  | greaterEqual => "GREATER_EQUAL"
  | less => "LESS"
  | lessEqual => "LESS_EQUAL"
  | identifier => "IDENTIFIER"
  | string => "STRING"
  | number => "NUMBER"
  | kwAnd => "AND"
  | kwClass => "CLASS"
  | kwElse => "ELSE"
  | kwFalse => "FALSE"
  | kwFun => "FUN"
  | kwFor => "FOR"
  | kwIf => "IF"
  | kwNil => "NIL"
  | kwOr => "OR"
  | kwPrint => "PRINT"
  | kwReturn => "RETURN"
  | kwSuper => "SUPER"
  | kwThis => "THIS"
  | kwTrue => "TRUE"
  | kwVar => "VAR"
  | kwWhile => "WHILE"
  | eof => "EOF"

def all : List Kind :=
  [leftParen, rightParen, leftBrace, rightBrace, comma, dot, minus, plus, semicolon, slash, star,
    bang, bangEqual, equal, equalEqual, greater, greaterEqual, less, lessEqual, identifier, string,
    number, kwAnd, kwClass, kwElse, kwFalse, kwFun, kwFor, kwIf, kwNil, kwOr, kwPrint, kwReturn,
    kwSuper, kwThis, kwTrue, kwVar, kwWhile, eof]

def ofName? (text : String) : Option Kind := all.find? (·.name = text)

/-- The reserved words. -/
def keywords : List (String × Kind) :=
  [("and", kwAnd), ("class", kwClass), ("else", kwElse), ("false", kwFalse), ("for", kwFor),
    ("fun", kwFun), ("if", kwIf), ("nil", kwNil), ("or", kwOr), ("print", kwPrint),
    ("return", kwReturn), ("super", kwSuper), ("this", kwThis), ("true", kwTrue), ("var", kwVar),
    ("while", kwWhile)]

/-- The kind of a word: a reserved word has a kind of its own. -/
def ofWord (word : String) : Kind := (keywords.lookup word).getD identifier

end Token.Kind

inductive Literal where
  | number (x : Float)
  | string (s : String)

def Literal.text : Literal → String
  | number x => Decimal.text "inf" x
  | string s => s

structure Token where
  kind : Token.Kind
  lexeme : String
  literal : Option Literal
  span : Span

namespace Token

/-- The mark at the end of a token list. -/
def endMark (span : Span) : Token := ⟨.eof, "", none, span⟩

/-- A token as it is listed: kind, lexeme and literal. -/
def display (token : Token) : String :=
  let literal := (token.literal.map Literal.text).getD "null"
  s!"{token.kind.name} {token.lexeme} {literal}"

end Token

end LoxLang
