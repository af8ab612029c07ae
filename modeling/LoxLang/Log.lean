import LoxLang.Stmt
import LoxLang.Token
import LoxLang.Text.Terminal

/-!
# The log

What the interpreter tells about its work. An entry is an event; its level, the component
it comes from and its message are functions of it.
-/

namespace LoxLang.Log

inductive Level where
  | error
  | warn
  | info
  | debug
  | trace
deriving DecidableEq

namespace Level

/-- The more severe a level, the lower its rank. -/
def rank : Level → Nat
  | error => 1
  | warn => 2
  | info => 3
  | debug => 4
  | trace => 5

def name : Level → String
  | error => "ERROR"
  | warn => "WARN"
  | info => "INFO"
  | debug => "DEBUG"
  | trace => "TRACE"

def all : List Level := [error, warn, info, debug, trace]

end Level

inductive Component where
  | lexer
  | parser
  | evaluator
  | environment
  | runner
  | repl
deriving DecidableEq

def Component.name : Component → String
  | lexer => "lox::lexer"
  | parser => "lox::parser"
  | evaluator => "lox::evaluator"
  | environment => "lox::environment"
  | runner => "lox::runner"
  | repl => "lox::repl"

inductive Entry where
  | token (found : Token)
  | scanned (tokens lines faults : Nat)
  | statement (form : Stmt.Form)
  | parsed (statements faults : Nat)
  | evaluating (statements : Nat)
  | executing (form : Stmt.Form)
  | pushedScope (index : Nat)
  | poppedScope (index : Nat)
  | skipping (faults : Nat)
  | malformed (flaw : Text.Utf8.Flaw)
  | running (path : String)
  | endOfInput

namespace Entry

def level : Entry → Level
  | token _ | statement _ | executing _ | pushedScope _ | poppedScope _ => .trace
  | running _ => .info
  | _ => .debug

def component : Entry → Component
  | token _ | scanned .. => .lexer
  | statement _ | parsed .. => .parser
  | evaluating _ | executing _ => .evaluator
  | pushedScope _ | poppedScope _ => .environment
  | skipping _ | malformed _ | running _ => .runner
  | endOfInput => .repl

def message : Entry → String
  | token found => s!"token {found.display}"
  | scanned tokens lines faults => s!"scanned {tokens} tokens over {lines} lines ({faults} errors)"
  | statement form => s!"parsed statement {form.name}"
  | parsed statements faults => s!"parsed {statements} statements ({faults} syntax errors)"
  | evaluating statements => s!"evaluating {statements} statements"
  | executing form => s!"executing {form.name}"
  | pushedScope index => s!"pushed scope {index}"
  | poppedScope index => s!"popped scope {index}"
  | skipping faults => s!"skipping evaluation after {faults} errors"
  | malformed flaw => s!"input is not valid UTF-8: {flaw.message}"
  | running path => s!"running {path}"
  | endOfInput => "end of input, leaving REPL"

/-- The line of an entry on the error channel. Levels are padded to one width, the lines of
a message behind its first are indented, and nothing in it controls a terminal. -/
def line (entry : Entry) : String :=
  let level := entry.level.name
  let padding := String.ofList (List.replicate (5 - level.length) ' ')
  let message := "\n    ".intercalate (entry.message.splitOn "\n")
  Text.Terminal.plain s!"[{level}{padding} {entry.component.name}] {message}\n"

end Entry

end LoxLang.Log
