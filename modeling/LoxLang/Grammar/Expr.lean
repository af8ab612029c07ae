import LoxLang.Expr
import LoxLang.Grammar.Rule

/-!
# Expressions in the grammar

Binary operators come in six tiers, each a left-associative chain over operands of the
tiers that bind tighter. Nesting is limited by a budget of levels. An expression, the
value of an assignment and the operand of a unary operator each cost one level; in a chain
every operator costs one level for the rest of the chain. So each way in which the grammar
runs in a circle spends from the budget, and the rules are defined by recursion on it.
-/

namespace LoxLang

/-- What a binary operator token builds. -/
inductive Connective where
  | binary (op : BinaryOp)
  | logical (op : LogicalOp)
deriving DecidableEq

def Connective.join (connective : Connective) (left right : Expr) : Expr :=
  let span := left.span.cover right.span
  match connective with
  | binary op => .binary op left right span
  | logical op => .logical op left right span

inductive Tier where
  | disjunction
  | conjunction
  | equality
  | comparison
  | term
  | factor
deriving DecidableEq

namespace Tier

/-- All tiers, the loosest first. -/
def all : List Tier := [disjunction, conjunction, equality, comparison, term, factor]

def connective? : Tier → Token.Kind → Option Connective
  | disjunction, .kwOr => some (.logical .or)
  | conjunction, .kwAnd => some (.logical .and)
  | equality, .bangEqual => some (.binary .notEqual)
  | equality, .equalEqual => some (.binary .equal)
  | comparison, .greater => some (.binary .greater)
  | comparison, .greaterEqual => some (.binary .greaterEqual)
  | comparison, .less => some (.binary .less)
  | comparison, .lessEqual => some (.binary .lessEqual)
  | term, .minus => some (.binary .subtract)
  | term, .plus => some (.binary .add)
  | factor, .slash => some (.binary .divide)
  | factor, .star => some (.binary .multiply)
  | _, _ => none

end Tier

def UnaryOp.ofKind? : Token.Kind → Option UnaryOp
  | .bang => some .not
  | .minus => some .negate
  | _ => none

namespace Grammar

/-- The rules of one nesting level. -/
structure Level where
  /-- An assignment or anything that binds tighter. -/
  assignment : Rule Expr
  /-- A unary operator with its operand, or a primary. -/
  unary : Rule Expr
  /-- A chain of the first tier over operands of the others. -/
  operand : List Tier → Rule Expr
  /-- The rest of a chain of a tier, over operands of the tighter tiers, behind its left part. -/
  chain : Tier → List Tier → Expr → Rule Expr

/-- A rule one level deeper, if there is such a level. -/
def deeper {α : Type} (below : Option Level) (rule : Level → Rule α) : Rule α :=
  match below with
  | none => .tooDeep
  | some level => rule level

/-- What follows an opening parenthesis. -/
def group (below : Option Level) (opening : Span) : Rule Expr := do
  if (← Rule.peek) = some .rightParen then
    Rule.fail .emptyParens
  else
    let inner ← deeper below Level.assignment
    let closing ← Rule.expect .rightParen .noParenAfterExpression
    return .grouping inner (opening.cover closing.span)

def primary (below : Option Level) : Rule Expr
  | [] => Rule.fail (.noExpression .eof) []
  | token :: rest =>
    match token.kind, token.literal with
    | .kwFalse, _ => Rule.done (.literal (.bool false) token.span) rest
    | .kwTrue, _ => Rule.done (.literal (.bool true) token.span) rest
    | .kwNil, _ => Rule.done (.literal .nil token.span) rest
    | .number, some (.number x) => Rule.done (.literal (.number x) token.span) rest
    | .number, _ => Rule.fail .badNumberLiteral (token :: rest)
    | .string, some (.string s) => Rule.done (.literal (.string s) token.span) rest
    | .string, _ => Rule.fail .badStringLiteral (token :: rest)
    | .identifier, _ => Rule.done (.reference token.lexeme token.span) rest
    | .leftParen, _ => group below token.span rest
    | kind, _ => Rule.fail (.noExpression kind) (token :: rest)

def unary (below : Option Level) : Rule Expr
  | [] => primary below []
  | token :: rest =>
    match UnaryOp.ofKind? token.kind with
    | none => primary below (token :: rest)
    | some op =>
      (do
        let operand ← deeper below Level.unary
        return Expr.unary op operand (token.span.cover operand.span) : Rule Expr) rest

def chain (below : Option Level) (tier : Tier) (tighter : List Tier) (left : Expr) : Rule Expr
  | [] => Rule.done left []
  | token :: rest =>
    match tier.connective? token.kind with
    | none => Rule.done left (token :: rest)
    | some connective =>
      deeper below (fun level => do
        let right ← level.operand tighter
        level.chain tier tighter (connective.join left right)) rest

def operand (below : Option Level) : List Tier → Rule Expr
  | [] => unary below
  | tier :: tighter => do
    let left ← operand below tighter
    chain below tier tighter left

/-- Only a bare variable can be assigned to; any other target is a fault that the rule
goes on after, with the target as its value. -/
def assignment (below : Option Level) : Rule Expr := do
  let target ← operand below Tier.all
  match ← Rule.accept .equal with
  | none => return target
  | some equals =>
    let value ← deeper below Level.assignment
    match target with
    | .reference name span => return .assign name value (span.cover value.span)
    | _ =>
      Rule.note (.atToken equals .badAssignmentTarget)
      return target

/-- The rules of a level, given those of the level below it. -/
def Level.above (below : Option Level) : Level where
  assignment := Grammar.assignment below
  unary := Grammar.unary below
  operand := Grammar.operand below
  chain := Grammar.chain below

/-- The rules where the given number of further levels is left. -/
def level : Nat → Level
  | 0 => .above none
  | budget + 1 => .above (some (level budget))

/-- An expression, read with the given number of levels left. -/
def expression : Nat → Rule Expr
  | 0 => .tooDeep
  | budget + 1 => (level budget).assignment

end Grammar

end LoxLang
