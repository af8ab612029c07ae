import LoxLang.Fault
import LoxLang.Text.Lines

/-!
# Reports

How a fault is shown: as a line, or with the place in the source where it lies and the
advice that goes with it.
-/

namespace LoxLang

inductive Report where
  | line (text : String)
  | located (header : String) (location note : Option String)

namespace Report

inductive Style where
  | plain
  | pretty
deriving DecidableEq

def coloured (code : Nat) (text : String) : String := s!"\x1b[{code}m{text}\x1b[0m"

def title : Stage → String
  | .scanning => coloured 31 "Lexical Error"
  | .parsing => coloured 33 "Syntax Error"
  | .running => coloured 35 "Runtime Error"

def header (fault : Fault) : String :=
  s!"{title fault.stage} [line {fault.span.line}]{fault.locus.text}: {fault.message}"

/-- The characters that a report points at: the index of the first, and that of the one behind
the last. -/
structure Label where
  start : Nat
  stop : Nat
deriving DecidableEq

/-- Spans count bytes and labels characters. The label of a span that ends before its start is
empty. -/
def label (source : List Char) (span : Span) : Label :=
  let start := Text.charsBefore span.start source
  ⟨start, max (Text.charsBefore span.stop source) start⟩

def location (source : List Char) (filename : Option String) (fault : Fault) : String :=
  let place := Text.placeOf source (label source fault.span).start
  let name := filename.getD "<repl>"
  s!"{name}:{place.line}:{place.column}"

def note (fault : Fault) : Option String :=
  let label := coloured 36 "help"
  fault.help.map fun help => s!"{label}: {help}"

/-- The report of a fault in a source. Nothing of an empty source can be shown. -/
def ofFault (style : Style) (source : List Char) (filename : Option String) (fault : Fault) :
    Report :=
  match style, source with
  | .plain, _ => .line fault.text
  | .pretty, [] => .located (header fault) none none
  | .pretty, source => .located (header fault) (some (location source filename fault)) (note fault)

end Report

end LoxLang
