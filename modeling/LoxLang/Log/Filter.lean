import LoxLang.Log
import LoxLang.Pattern.Reader

/-!
# Log filters

A filter chooses entries by level and component, and may want a pattern in their messages.
Its text is a list of directives, one of `level`, `component` and `component=level` each, and
behind a slash the pattern. What is wrong in a text is left out with a warning.
-/

namespace LoxLang.Log

/-- The least severe level that each component may log at, if any, and the pattern that has
to be found in a message. -/
structure Filter where
  threshold : Component → Option Level
  pattern : Option Pattern := none

namespace Filter

def off : Filter := { threshold := fun _ => none }

def upTo (level : Level) : Filter := { threshold := fun _ => some level }

def admits (filter : Filter) (entry : Entry) : Bool :=
  (filter.threshold entry.component).any (entry.level.rank ≤ ·.rank) &&
    filter.pattern.all (·.found entry.message)

/-- The components whose names start with `scope`, or all without one, log up to `level`. -/
structure Directive where
  scope : Option String
  level : Option Level

namespace Directive

def applies (directive : Directive) (component : Component) : Bool :=
  directive.scope.all (·.isPrefixOf component.name)

def weight (directive : Directive) : Nat := (directive.scope.getD "").length

/-- Puts a directive in the place of the one with the same scope, or else behind all. -/
def insert (directive : Directive) : List Directive → List Directive
  | [] => [directive]
  | first :: others =>
    if first.scope = directive.scope then directive :: others
    else first :: directive.insert others

end Directive

inductive Warning where
  | manySlashes (text : String)
  | badDirective (text : String)
  | badPattern (text : String) (flaw : Pattern.Flaw)

def Warning.message : Warning → String
  | manySlashes text => s!"invalid logging spec '{text}' (too many '/'s)"
  | badDirective text => s!"invalid logging spec '{text}'"
  | badPattern text flaw => s!"invalid regex filter - {flaw.message text}"

/-- A level's name, in any case, or `off`. -/
def level? (text : String) : Option (Option Level) :=
  let name := text.toUpper
  if name = "OFF" then some none else (Level.all.find? (·.name = name)).map some

/-- Without a level, a component logs everything. -/
def readDirective (text : String) : Except Warning Directive :=
  match text.splitOn "=" with
  | [single] =>
    match level? single with
    | some level => .ok ⟨none, level⟩
    | none => .ok ⟨some single, some .trace⟩
  | [scope, level] =>
    let level := Text.trim level
    if level.isEmpty then .ok ⟨some scope, some .trace⟩
    else
      match level? level with
      | some level => .ok ⟨some scope, level⟩
      | none => .error (.badDirective level)
  | _ => .error (.badDirective text)

/-- The directives of a text, separated by commas, and the warnings about it. -/
def readDirectives (text : String) : List Directive × List Warning :=
  let parts := ((text.splitOn ",").map Text.trim).filter fun part => !part.isEmpty
  parts.foldl
    (fun (directives, warnings) part =>
      match readDirective part with
      | .ok directive => (directive.insert directives, warnings)
      | .error warning => (directives, warnings ++ [warning]))
    ([], [])

/-- Of the directives that apply to a component the most specific one counts, the later one
of two equals. Without any directives, errors are logged. -/
def thresholdOf (directives : List Directive) (component : Component) : Option Level :=
  if directives.isEmpty then some .error
  else
    let best := (directives.filter (·.applies component)).foldl
      (fun best next =>
        if best.all fun (found : Directive) => found.weight ≤ next.weight then some next else best)
      none
    best.bind Directive.level

def ofText (text : String) : Filter × List Warning :=
  match text.splitOn "/" with
  | [directives] =>
    let (directives, warnings) := readDirectives directives
    ({ threshold := thresholdOf directives }, warnings)
  | [directives, pattern] =>
    let (directives, warnings) := readDirectives directives
    match Pattern.read pattern with
    | .ok pattern => (⟨thresholdOf directives, some pattern⟩, warnings)
    | .error flaw => ({ threshold := thresholdOf directives }, warnings ++ [.badPattern pattern flaw])
  | _ => ({ threshold := thresholdOf [] }, [.manySlashes text])

end Filter

end LoxLang.Log
