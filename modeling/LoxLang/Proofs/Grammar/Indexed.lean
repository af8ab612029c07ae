import LoxLang.Proofs.Grammar.Completeness
import LoxLang.Proofs.Grammar.Consumption

/-!
# Reading tokens by index

The grammar once more, for a reader that holds the whole token list and an index into it. It looks
at the token at the index and at the one before, and so it can read outside of the list; it counts
the levels of nesting up, throws faults, records those that it recovers from, and when the nesting
is too deep it jumps to the last token. What must not happen is made visible: a reader that reads
outside of the list, that comes to a case it takes to be impossible, that tries a declaration and
does not move, or that does not stop, crashes.
-/

namespace LoxLang.Indexed

inductive Crash where
  /-- A token was read that is not in the list. -/
  | outside
  /-- A case was reached that was taken to be impossible. -/
  | unreachable
  /-- A declaration was tried before the end, and no token was taken. -/
  | stuck
  /-- The calls that are left did not suffice. -/
  | endless
  /-- A fault was thrown past all declarations. -/
  | uncaught

structure State where
  current : Nat := 0
  depth : Nat := 0
  aborted : Bool := false
  faults : List Fault := []

/-- An action either crashes or ends, with a value or by throwing a fault. -/
def Action (α : Type) : Type := List Token → State → Except Crash (Except Fault α × State)

namespace Action

variable {α β : Type}

def done (value : α) : Action α := fun _ state => .ok (.ok value, state)

def fail (fault : Fault) : Action α := fun _ state => .ok (.error fault, state)

def crash (reason : Crash) : Action α := fun _ _ => .error reason

def andThen (first : Action α) (second : α → Action β) : Action β := fun tokens state =>
  match first tokens state with
  | .ok (.ok value, after) => second value tokens after
  | .ok (.error fault, after) => .ok (.error fault, after)
  | .error reason => .error reason

instance : Monad Action where
  pure := done
  bind := andThen

/-- The token at an index. -/
def tokenAt (index : Nat) : Action Token := fun tokens state =>
  match tokens[index]? with
  | some token => .ok (.ok token, state)
  | none => .error .outside

def peek : Action Token := fun tokens state => tokenAt state.current tokens state

def previous : Action Token := fun tokens state => tokenAt (state.current - 1) tokens state

def atEnd : Action Bool := do
  return (← peek).kind = .eof

def step : Action Unit := fun _ state => .ok (.ok (), { state with current := state.current + 1 })

/-- Takes the next token, unless it is the mark at the end. -/
def advance : Action Token := do
  if ← atEnd then previous
  else
    step
    previous

def check (kind : Token.Kind) : Action Bool := do
  if ← atEnd then return false
  else return (← peek).kind = kind

/-- Takes the next token if it is of one of the kinds. -/
def accept : List Token.Kind → Action Bool
  | [] => return false
  | kind :: others => do
    if ← check kind then
      let _ ← advance
      return true
    else accept others

def errorAt (token : Token) (issue : Issue) : Fault :=
  if token.kind = .eof then ⟨token.span, .atEnd, issue⟩ else .atToken token issue

def consume (kind : Token.Kind) (issue : Issue) : Action Token := do
  if ← check kind then advance
  else fail (errorAt (← peek) issue)

def record (fault : Fault) : Action Unit := fun _ state =>
  .ok (.ok (), { state with faults := state.faults ++ [fault] })

def level : Action Nat := fun _ state => .ok (.ok state.depth, state)

def restore (depth : Nat) : Action Unit := fun _ state =>
  .ok (.ok (), { state with depth := depth })

/-- Records the fault and goes to the last token. -/
def abort (fault : Fault) : Action α := fun tokens state =>
  .ok (.error fault, { state with
    current := tokens.length - 1, aborted := true, faults := state.faults ++ [fault] })

/-- Enters one more level. -/
def deepen : Action Unit := do
  let depth ← level
  restore (depth + 1)
  if depth + 1 ≤ nestingLimit then return ()
  else abort (errorAt (← peek) .nestingTooDeep)

/-- Leaves the levels that the rule entered, however it ends. -/
def levelled (rule : Action α) : Action α := fun tokens state =>
  match rule tokens state with
  | .ok (result, after) => .ok (result, { after with depth := state.depth })
  | .error reason => .error reason

def nested (rule : Action α) : Action α :=
  levelled do
    deepen
    rule

/-- Records a fault that is thrown and recovers from it, unless the reading was given up. -/
def catching (rule : Action α) (recover : Action Unit) : Action (Option α) := fun tokens state =>
  match rule tokens state with
  | .ok (.ok value, after) => .ok (.ok (some value), after)
  | .ok (.error fault, after) =>
    if after.aborted then .ok (.ok none, after)
    else
      (do
        record fault
        recover
        return none : Action (Option α)) tokens after
  | .error reason => .error reason

/-- Started before the end, the rule has to move on. -/
def moving (rule : Action α) : Action α := fun tokens state =>
  match rule tokens state with
  | .ok (result, after) =>
    if (tokens[state.current]?.any (·.kind ≠ .eof)) ∧ after.current ≤ state.current then
      .error .stuck
    else .ok (result, after)
  | .error reason => .error reason

end Action

open Indexed.Action

/-- The actions that call one another in a circle. -/
structure Calls where
  expression : Action Expr
  assignment : Action Expr
  unary : Action Expr
  operand : List Tier → Action Expr
  chain : Nat → Tier → List Tier → Expr → Action Expr
  statement : Action Stmt
  items : Action (List Stmt)
  skip : Action Unit

section

variable (calls : Calls)

/-! ## Expressions -/

/-- What follows an opening parenthesis. -/
def group (opening : Span) : Action Expr := do
  if ← check .rightParen then fail (errorAt (← peek) .emptyParens)
  else
    let inner ← calls.expression
    let closing ← consume .rightParen .noParenAfterExpression
    return .grouping inner (opening.cover closing.span)

/-- Takes the next token for the expression that it is. -/
def taking (expr : Expr) : Action Expr := do
  let _ ← advance
  return expr

def primary : Action Expr := do
  let token ← peek
  match token.kind, token.literal with
  | .kwFalse, _ => taking (.literal (.bool false) token.span)
  | .kwTrue, _ => taking (.literal (.bool true) token.span)
  | .kwNil, _ => taking (.literal .nil token.span)
  | .number, some (.number x) => taking (.literal (.number x) token.span)
  | .number, _ => fail (errorAt token .badNumberLiteral)
  | .string, some (.string s) => taking (.literal (.string s) token.span)
  | .string, _ => fail (errorAt token .badStringLiteral)
  | .identifier, _ => taking (.reference token.lexeme token.span)
  | .leftParen, _ => do
    let _ ← advance
    group calls token.span
  | kind, _ => fail (errorAt token (.noExpression kind))

def unary : Action Expr := do
  if ← accept (Grammar.prefixOperators.map Prod.fst) then
    let operator ← previous
    match UnaryOp.ofKind? operator.kind with
    | none => crash .unreachable
    | some op =>
      let operand ← nested calls.unary
      return .unary op operand (operator.span.cover operand.span)
  else primary calls

/-- The rest of a chain, and back to the level at which the chain started. -/
def chain (depth : Nat) (tier : Tier) (tighter : List Tier) (left : Expr) : Action Expr := do
  if ← accept (tier.operators.map Prod.fst) then
    deepen
    let operator ← previous
    match tier.connective? operator.kind with
    | none => crash .unreachable
    | some connective =>
      let right ← calls.operand tighter
      calls.chain depth tier tighter (connective.join left right)
  else
    restore depth
    return left

def operand : List Tier → Action Expr
  | [] => unary calls
  | tier :: tighter => do
    let depth ← level
    let left ← operand tighter
    chain calls depth tier tighter left

def assignment : Action Expr := do
  let target ← operand calls Tier.all
  if ← accept [.equal] then
    let equals ← previous
    let value ← nested calls.assignment
    match target with
    | .reference name span => return .assign name value (span.cover value.span)
    | _ =>
      record (errorAt equals .badAssignmentTarget)
      return target
  else return target

def expression : Action Expr := nested (assignment calls)

/-! ## Statements -/

/-- What follows `var`. -/
def varDeclaration : Action Stmt := do
  let opening ← previous
  let name ← consume .identifier .noVariableName
  let initial ← if ← accept [.equal] then some <$> expression calls else pure none
  let closing ← consume .semicolon .noSemicolonAfterDeclaration
  return .declare name.lexeme initial (opening.span.cover closing.span)

def expressionStatement (mode : Grammar.Mode) : Action Stmt := do
  let opening ← peek
  let expr ← expression calls
  if mode = .interactive ∧ (← atEnd) then
    let closing ← previous
    return .expression expr (opening.span.cover closing.span)
  else
    let closing ← consume .semicolon .noSemicolonAfterExpression
    return .expression expr (opening.span.cover closing.span)

/-- What follows `print`. -/
def print : Action Stmt := do
  let opening ← previous
  let expr ← expression calls
  let closing ← consume .semicolon .noSemicolonAfterValue
  return .print expr (opening.span.cover closing.span)

/-- What follows `if`. -/
def branch : Action Stmt := do
  let opening ← previous
  let _ ← consume .leftParen .noParenAfterIf
  let condition ← expression calls
  let _ ← consume .rightParen .noParenAfterIfCondition
  let thenBranch ← calls.statement
  if ← accept [.kwElse] then
    let elseBranch ← calls.statement
    return .branch condition thenBranch (some elseBranch) (opening.span.cover elseBranch.span)
  else return .branch condition thenBranch none (opening.span.cover thenBranch.span)

/-- What follows `while`. -/
def loop : Action Stmt := do
  let opening ← previous
  let _ ← consume .leftParen .noParenAfterWhile
  let condition ← expression calls
  let _ ← consume .rightParen .noParenAfterWhileCondition
  let body ← calls.statement
  return .loop condition body (opening.span.cover body.span)

/-- The first clause of a `for` loop with the `;` behind it. -/
def forInitial (mode : Grammar.Mode) : Action (Option Stmt) := do
  if ← accept [.semicolon] then return none
  else if ← accept [.kwVar] then some <$> varDeclaration calls
  else some <$> expressionStatement calls mode

def expressionUnless (stop : Token.Kind) : Action (Option Expr) := do
  if ← check stop then return none
  else some <$> expression calls

def forClauses (mode : Grammar.Mode) : Action Grammar.ForClauses := do
  let _ ← consume .leftParen .noParenAfterFor
  let initial ← forInitial calls mode
  let condition ← expressionUnless calls .semicolon
  let separator ← consume .semicolon .noSemicolonAfterCondition
  let increment ← expressionUnless calls .rightParen
  let _ ← consume .rightParen .noParenAfterForClauses
  return ⟨initial, condition, separator.span, increment⟩

/-- What follows `for`. -/
def forLoop (mode : Grammar.Mode) : Action Stmt := do
  let opening ← previous
  let clauses ← forClauses calls mode
  let body ← calls.statement
  return clauses.toLoop body (opening.span.cover body.span)

/-- What follows an opening brace. -/
def block : Action Stmt := do
  let opening ← previous
  let body ← calls.items
  let _ ← consume .rightBrace .noBraceAfterBlock
  let closing ← previous
  return .block body (opening.span.cover closing.span)

def body (mode : Grammar.Mode) : Action Stmt := do
  if ← accept [.kwPrint] then print calls
  else if ← accept [.leftBrace] then block calls
  else if ← accept [.kwIf] then branch calls
  else if ← accept [.kwWhile] then loop calls
  else if ← accept [.kwFor] then forLoop calls mode
  else expressionStatement calls mode

def statement (mode : Grammar.Mode) : Action Stmt := nested (body calls mode)

/-- Goes on to a likely start of a statement. -/
def skip : Action Unit := do
  if ← atEnd then return ()
  else if (← previous).kind = .semicolon then return ()
  else if Grammar.startsStatement (← peek).kind then return ()
  else
    let _ ← advance
    calls.skip

def synchronize : Action Unit := do
  let _ ← advance
  skip calls

def declarationOrStatement (mode : Grammar.Mode) : Action Stmt := do
  if ← accept [.kwVar] then varDeclaration calls
  else statement calls mode

def declaration (mode : Grammar.Mode) : Action (Option Stmt) :=
  moving (catching (levelled (declarationOrStatement calls mode)) (synchronize calls))

/-- Declarations up to a closing brace. -/
def items (mode : Grammar.Mode) : Action (List Stmt) := do
  if ← check .rightBrace then return []
  else if ← atEnd then return []
  else
    let first ← declaration calls mode
    let others ← calls.items
    return first.toList ++ others

end

/-! ## Programs -/

/-- The actions, if calls may be nested as deep as the given number. -/
def callsWithin (mode : Grammar.Mode) : Nat → Calls
  | 0 =>
    { expression := crash .endless
      assignment := crash .endless
      unary := crash .endless
      operand := fun _ => crash .endless
      chain := fun _ _ _ _ => crash .endless
      statement := crash .endless
      items := crash .endless
      skip := crash .endless }
  | bound + 1 =>
    let calls := callsWithin mode bound
    { expression := expression calls
      assignment := assignment calls
      unary := unary calls
      operand := operand calls
      chain := chain calls
      statement := statement calls mode
      items := items calls mode
      skip := skip calls }

/-- Declarations up to the end. -/
def declarations (mode : Grammar.Mode) : Nat → Action (List Stmt)
  | 0 => crash .endless
  | bound + 1 => do
    if ← atEnd then return []
    else
      let first ← declaration (callsWithin mode bound) mode
      let others ← declarations mode bound
      return first.toList ++ others

/-- The list with a mark at its end. -/
def load (tokens : List Token) : List Token :=
  match tokens.getLast? with
  | none => [.endMark ⟨0, 0, 1⟩]
  | some last => if last.kind = .eof then tokens else tokens ++ [.endMark last.span.after]

/-- Reads a program from a token list, with calls nested as deep as the given number. -/
def parse (mode : Grammar.Mode) (bound : Nat) (tokens : List Token) : Except Crash Program :=
  match declarations mode bound (load tokens) {} with
  | .ok (.ok statements, after) => .ok ⟨statements, after.faults⟩
  | .ok (.error _, _) => .error .uncaught
  | .error reason => .error reason

end LoxLang.Indexed
