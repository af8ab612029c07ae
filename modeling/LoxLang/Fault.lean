import LoxLang.Token
import LoxLang.Value

/-!
# Faults

What can be wrong with a program, found while it is scanned, parsed or run. An issue is
a cause; its wording, the advice that goes with it and the line that reports it are
functions of the cause and of where it arose.
-/

namespace LoxLang

/-- Nested statements, groupings, operands and operator chains reach no deeper than this. -/
def nestingLimit : Nat := 128

inductive Stage where
  | scanning
  | parsing
  | running
deriving DecidableEq

inductive Issue where
  | unexpectedCharacter (c : Char)
  | unterminatedString
  | noVariableName
  | noSemicolonAfterDeclaration
  | noSemicolonAfterValue
  | noSemicolonAfterExpression
  | noSemicolonAfterCondition
  | noBraceAfterBlock
  | noParenAfterIf
  | noParenAfterIfCondition
  | noParenAfterWhile
  | noParenAfterWhileCondition
  | noParenAfterFor
  | noParenAfterForClauses
  | noParenAfterExpression
  | emptyParens
  | noExpression (found : Token.Kind)
  | badNumberLiteral
  | badStringLiteral
  | badAssignmentTarget
  | nestingTooDeep
  | undefinedVariable (name : String)
  | undefinedTarget (name : String)
  | badNegation (operand : ValueType)
  | badAddition (left right : ValueType)
  | badOperands (left right : ValueType)
  | outputFailed (reason : String)
  /-- An issue that a client of the library words itself. -/
  | other (stage : Stage) (message : String) (help : Option String)
deriving DecidableEq

namespace Issue

def stage : Issue → Stage
  | unexpectedCharacter _ | unterminatedString => .scanning
  | undefinedVariable _ | undefinedTarget _ | badNegation _ | badAddition .. | badOperands ..
  | outputFailed _ => .running
  | other stage .. => stage
  | _ => .parsing

def message : Issue → String
  | unexpectedCharacter _ => "Unexpected character."
  | unterminatedString => "Unterminated string."
  | noVariableName => "Expected variable name"
  | noSemicolonAfterDeclaration => "Expected ';' after variable declaration"
  | noSemicolonAfterValue => "Expected ';' after value"
  | noSemicolonAfterExpression => "Expected ';' after expression"
  | noSemicolonAfterCondition => "Expected ';' after loop condition"
  | noBraceAfterBlock => "Expected '\x7d' after block"
  | noParenAfterIf => "Expected '(' after 'if'"
  | noParenAfterIfCondition => "Expected ')' after if condition"
  | noParenAfterWhile => "Expected '(' after 'while'"
  | noParenAfterWhileCondition => "Expected ')' after while condition"
  | noParenAfterFor => "Expected '(' after 'for'"
  | noParenAfterForClauses => "Expected ')' after for clauses"
  | noParenAfterExpression => "Expected ')' after expression"
  | emptyParens => "Expected expression"
  | noExpression _ => "Expected expression"
  | badNumberLiteral => "Invalid number literal"
  | badStringLiteral => "Invalid string literal"
  | badAssignmentTarget => "Invalid assignment target"
  | nestingTooDeep => "Nesting is too deep"
  | undefinedVariable name => s!"Undefined variable '{name}'."
  | undefinedTarget name => s!"Undefined variable '{name}'."
  | badNegation _ => "Operand must be a number."
  | badAddition .. => "Operands must be two numbers or two strings."
  | badOperands .. => "Operands must be numbers."
  | outputFailed reason => s!"Failed to write output: {reason}"
  | other _ message _ => message

/-- Advice where an expression was expected, by the kind of token found there. -/
def expressionHelp : Token.Kind → String
  | .rightParen => "Found ')' without matching '('. Check for unbalanced parentheses."
  | .rightBrace => "Found '\x7d' without matching '\x7b'. Check for unbalanced braces."
  | .eof => "Reached end of input while expecting an expression."
  | .kwClass | .kwFun | .kwReturn | .kwSuper | .kwThis =>
    "This keyword is reserved and cannot be used here."
  | _ => "Expected a literal value, variable, or parenthesized expression here."

def help : Issue → Option String
  | unexpectedCharacter c =>
    s!"'{c}' is not part of Lox; only ASCII identifiers, numbers, strings and operators are allowed."
  | unterminatedString => "Close the string literal with a matching '\"'."
  | noVariableName => "Variable declarations look like: var name = value;"
  | noBraceAfterBlock => "Block statements must be closed with '\x7d' after the opening '\x7b'."
  | noParenAfterIf =>
    "If statements require parentheses around the condition: if (condition) \x7b ... \x7d"
  | noParenAfterIfCondition =>
    "If conditions must be enclosed in parentheses: if (condition) \x7b ... \x7d"
  | noParenAfterExpression =>
    "Every opening parenthesis '(' must have a matching closing parenthesis ')'."
  | emptyParens =>
    "Parentheses must contain an expression. Use 'nil' for a null value: (nil)"
  | noExpression found => expressionHelp found
  | badAssignmentTarget => "Only variables can be assigned to. Example: x = 10"
  | nestingTooDeep =>
    s!"Statements and expressions may nest at most {nestingLimit} levels."
  | undefinedVariable _ => "Declare the variable first with 'var'."
  | undefinedTarget _ => "Assignment does not declare variables. Use 'var' to declare it."
  | badNegation operand => s!"Cannot negate a {operand.name}."
  | badAddition left right => s!"Cannot add {left.name} and {right.name}."
  | badOperands left right => s!"Got {left.name} and {right.name}."
  | other _ _ help => help
  | _ => none

end Issue

/-- The token at which a fault lies, as far as the report names it. -/
inductive Locus where
  | unspecified
  | atEnd
  | atLexeme (lexeme : String)
deriving DecidableEq

def Locus.text : Locus → String
  | unspecified => ""
  | atEnd => " at end"
  | atLexeme lexeme => s!" at '{lexeme}'"

structure Fault where
  span : Span
  locus : Locus
  issue : Issue
deriving DecidableEq

namespace Fault

def stage (fault : Fault) : Stage := fault.issue.stage

def message (fault : Fault) : String := fault.issue.message

def help (fault : Fault) : Option String := fault.issue.help

/-- A fault that no token is named for. -/
def plain (span : Span) (issue : Issue) : Fault := ⟨span, .unspecified, issue⟩

/-- A fault at a token. -/
def atToken (token : Token) (issue : Issue) : Fault := ⟨token.span, .atLexeme token.lexeme, issue⟩

/-- A fault at the next token, or at the end of the input if no token is left. -/
def atNext (eof : Span) (issue : Issue) : List Token → Fault
  | [] => ⟨eof, .atEnd, issue⟩
  | token :: _ => atToken token issue

/-- The line that reports a fault. -/
def text (fault : Fault) : String :=
  s!"[line {fault.span.line}] Error{fault.locus.text}: {fault.message}"

end Fault

/-- Whether a fault was found before anything was run. -/
def hadStaticFault (faults : List Fault) : Bool := faults.any (·.stage ≠ .running)

def hadRuntimeFault (faults : List Fault) : Bool := faults.any (·.stage = .running)

/-- The exit status after the given faults: static faults come before those of a run. -/
def exitCode (faults : List Fault) : Nat :=
  if hadStaticFault faults then 65 else if hadRuntimeFault faults then 70 else 0

end LoxLang
