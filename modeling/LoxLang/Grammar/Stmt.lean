import LoxLang.Stmt
import LoxLang.Grammar.Expr

/-!
# Statements in the grammar

A statement costs one level of the nesting budget, and what is inside it is read with the
levels that are then left. A declaration in which the grammar is violated is recorded as a
fault and given up, and reading goes on at the next likely start of a statement.
-/

namespace LoxLang.Grammar

/-- In interactive input the `;` behind an expression statement may be left out at the end. -/
inductive Mode where
  | script
  | interactive
deriving DecidableEq

/-- The rules for the parts of a statement, with the span of the end of the input. -/
structure Parts where
  mode : Mode
  eof : Span
  expression : Rule Expr
  statement : Rule Stmt

def firstSpan (eof : Span) (tokens : List Token) : Span := (tokens.head?.map Token.span).getD eof

def lastSpan (eof : Span) (tokens : List Token) : Span := (tokens.getLast?.map Token.span).getD eof

namespace Parts

/-- What follows `var`. -/
def declaration (parts : Parts) (opening : Span) : Rule Stmt := do
  let name ← Rule.expect .identifier .noVariableName
  let initial ←
    match ← Rule.accept .equal with
    | some _ => some <$> parts.expression
    | none => pure none
  let closing ← Rule.expect .semicolon .noSemicolonAfterDeclaration
  return .declare name.lexeme initial (opening.cover closing.span)

def expressionStatement (parts : Parts) : Rule Stmt := do
  let input ← Rule.remaining
  let expr ← parts.expression
  let opening := firstSpan parts.eof input
  if parts.mode = .interactive ∧ (← Rule.peek) = none then
    return .expression expr (opening.cover (lastSpan parts.eof input))
  else
    let closing ← Rule.expect .semicolon .noSemicolonAfterExpression
    return .expression expr (opening.cover closing.span)

/-- What follows `print`. -/
def print (parts : Parts) (opening : Span) : Rule Stmt := do
  let expr ← parts.expression
  let closing ← Rule.expect .semicolon .noSemicolonAfterValue
  return .print expr (opening.cover closing.span)

/-- What follows `if`. An `else` goes with the nearest `if` before it. -/
def branch (parts : Parts) (opening : Span) : Rule Stmt := do
  let _ ← Rule.expect .leftParen .noParenAfterIf
  let condition ← parts.expression
  let _ ← Rule.expect .rightParen .noParenAfterIfCondition
  let thenBranch ← parts.statement
  match ← Rule.accept .kwElse with
  | none => return .branch condition thenBranch none (opening.cover thenBranch.span)
  | some _ =>
    let elseBranch ← parts.statement
    return .branch condition thenBranch (some elseBranch) (opening.cover elseBranch.span)

/-- What follows `while`. -/
def loop (parts : Parts) (opening : Span) : Rule Stmt := do
  let _ ← Rule.expect .leftParen .noParenAfterWhile
  let condition ← parts.expression
  let _ ← Rule.expect .rightParen .noParenAfterWhileCondition
  let body ← parts.statement
  return .loop condition body (opening.cover body.span)

end Parts

/-- The clauses of a `for` loop; `separator` is the span of the `;` behind the condition. -/
structure ForClauses where
  initial : Option Stmt
  condition : Option Expr
  separator : Span
  increment : Option Expr

/-- A `for` loop as a `while` loop: the increment is run behind the body, in a block with
it, and the initial clause before the loop, in a block around it. -/
def ForClauses.toLoop (clauses : ForClauses) (body : Stmt) (span : Span) : Stmt :=
  let repeated :=
    match clauses.increment with
    | none => body
    | some increment => .block [body, .expression increment increment.span] span
  let condition := clauses.condition.getD (.literal (.bool true) clauses.separator)
  let loop := Stmt.loop condition repeated span
  match clauses.initial with
  | none => loop
  | some initial => .block [initial, loop] span

namespace Parts

/-- The first clause of a `for` loop with the `;` behind it. -/
def forInitial (parts : Parts) : Rule (Option Stmt) := do
  match ← Rule.accept .semicolon with
  | some _ => return none
  | none =>
    match ← Rule.accept .kwVar with
    | some token => some <$> parts.declaration token.span
    | none => some <$> parts.expressionStatement

/-- An expression, unless a token of the given kind comes first. -/
def expressionUnless (parts : Parts) (stop : Token.Kind) : Rule (Option Expr) := do
  if (← Rule.peek) = some stop then return none else some <$> parts.expression

def forClauses (parts : Parts) : Rule ForClauses := do
  let _ ← Rule.expect .leftParen .noParenAfterFor
  let initial ← parts.forInitial
  let condition ← parts.expressionUnless .semicolon
  let separator ← Rule.expect .semicolon .noSemicolonAfterCondition
  let increment ← parts.expressionUnless .rightParen
  let _ ← Rule.expect .rightParen .noParenAfterForClauses
  return ⟨initial, condition, separator.span, increment⟩

/-- What follows `for`. -/
def forLoop (parts : Parts) (opening : Span) : Rule Stmt := do
  let clauses ← parts.forClauses
  let body ← parts.statement
  return clauses.toLoop body (opening.cover body.span)

end Parts

def startsStatement : Token.Kind → Bool
  | .kwClass | .kwFun | .kwVar | .kwFor | .kwIf | .kwWhile | .kwPrint | .kwReturn => true
  | _ => false

/-- Drops the next token and those behind it up to a likely start of a statement: behind a
`;`, or before a keyword that starts one. -/
def synchronize : List Token → List Token
  | [] => []
  | token :: rest =>
    if token.kind = .semicolon ∨ (rest.head?.any fun next => startsStatement next.kind) then rest
    else synchronize rest

/-- Records a violation of the grammar and goes on behind it, without a value. -/
def recovering {α : Type} (eof : Span) (rule : Rule α) : Rule (Option α) := fun input =>
  match rule input with
  | ⟨faults, .done value rest⟩ => ⟨faults, .done (some value) rest⟩
  | ⟨faults, .failed issue rest⟩ =>
    ⟨faults ++ [.atNext eof issue rest], .done none (synchronize rest)⟩
  | ⟨faults, .tooDeep rest⟩ => ⟨faults, .tooDeep rest⟩

namespace Parts

def declarationOrStatement (parts : Parts) : Rule Stmt := do
  match ← Rule.accept .kwVar with
  | some token => parts.declaration token.span
  | none => parts.statement

/-- A declaration or a statement, or nothing if the grammar is violated in it. -/
def item (parts : Parts) : Rule (Option Stmt) := recovering parts.eof parts.declarationOrStatement

/-- Items up to a closing brace or the end of the input, at most the given number. Each
takes a token, so the number of tokens is a bound. -/
def items (parts : Parts) : Nat → Rule (List Stmt)
  | 0 => Rule.done []
  | bound + 1 => do
    match ← Rule.peek with
    | none | some .rightBrace => return []
    | some _ =>
      let first ← parts.item
      let others ← parts.items bound
      return first.toList ++ others

/-- What follows an opening brace. -/
def block (parts : Parts) (opening : Span) : Rule Stmt := do
  let body ← parts.items (← Rule.remaining).length
  let closing ← Rule.expect .rightBrace .noBraceAfterBlock
  return .block body (opening.cover closing.span)

/-- A statement, given the rules for its parts. -/
def body (parts : Parts) : Rule Stmt
  | [] => parts.expressionStatement []
  | token :: rest =>
    match token.kind with
    | .kwPrint => parts.print token.span rest
    | .leftBrace => parts.block token.span rest
    | .kwIf => parts.branch token.span rest
    | .kwWhile => parts.loop token.span rest
    | .kwFor => parts.forLoop token.span rest
    | _ => parts.expressionStatement (token :: rest)

end Parts

/-- The rules for what stands where the given number of levels is left. A statement takes
one of them. -/
def parts (mode : Mode) (eof : Span) : Nat → Parts
  | 0 => ⟨mode, eof, expression 0, .tooDeep⟩
  | budget + 1 => ⟨mode, eof, expression (budget + 1), (parts mode eof budget).body⟩

end LoxLang.Grammar
