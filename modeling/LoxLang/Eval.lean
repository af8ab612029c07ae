import LoxLang.Environment
import LoxLang.Expr
import LoxLang.Fault

/-!
# Evaluating expressions

Operands are evaluated from left to right, and the first fault ends the evaluation. An
expression may assign to variables, so the environment is returned in either case.
-/

namespace LoxLang

def UnaryOp.apply : UnaryOp → Value → Except Issue Value
  | negate, .number x => .ok (.number (-x))
  | negate, value => .error (.badNegation value.type)
  | not, value => .ok (.bool (!value.truthy))

/-- Applies an operation to two numbers. -/
def onNumbers (op : Float → Float → Value) : Value → Value → Except Issue Value
  | .number x, .number y => .ok (op x y)
  | left, right => .error (.badOperands left.type right.type)

def addValues : Value → Value → Except Issue Value
  | .number x, .number y => .ok (.number (x + y))
  | .string s, .string t => .ok (.string (s ++ t))
  | left, right => .error (.badAddition left.type right.type)

def BinaryOp.apply : BinaryOp → Value → Value → Except Issue Value
  | add => addValues
  | subtract => onNumbers fun x y => .number (x - y)
  | multiply => onNumbers fun x y => .number (x * y)
  | divide => onNumbers fun x y => .number (x / y)
  | equal => fun left right => .ok (.bool (left.equal right))
  | notEqual => fun left right => .ok (.bool (!left.equal right))
  | less => onNumbers fun x y => .bool (x < y)
  | lessEqual => onNumbers fun x y => .bool (x ≤ y)
  | greater => onNumbers fun x y => .bool (y < x)
  | greaterEqual => onNumbers fun x y => .bool (y ≤ x)

/-- Whether the left operand alone decides. -/
def LogicalOp.decides : LogicalOp → Value → Bool
  | or, value => value.truthy
  | and, value => !value.truthy

/-- What an operation gives, an issue becoming a fault at the span. -/
def located (span : Span) : Except Issue Value → Except Fault Value
  | .ok value => .ok value
  | .error issue => .error (.plain span issue)

def Expr.eval : Expr → Environment → Except Fault Value × Environment
  | literal value _, env => (.ok value, env)
  | grouping inner _, env => inner.eval env
  | reference name span, env =>
    match env.get? name with
    | some value => (.ok value, env)
    | none => (.error (.plain span (.undefinedVariable name)), env)
  | assign name value span, env =>
    match value.eval env with
    | (.error fault, env) => (.error fault, env)
    | (.ok value, env) =>
      match env.assign? name value with
      | some env => (.ok value, env)
      | none => (.error (.plain span (.undefinedTarget name)), env)
  | unary op operand span, env =>
    match operand.eval env with
    | (.error fault, env) => (.error fault, env)
    | (.ok value, env) => (located span (op.apply value), env)
  | binary op left right span, env =>
    match left.eval env with
    | (.error fault, env) => (.error fault, env)
    | (.ok leftValue, env) =>
      match right.eval env with
      | (.error fault, env) => (.error fault, env)
      | (.ok rightValue, env) => (located span (op.apply leftValue rightValue), env)
  | logical op left right _, env =>
    match left.eval env with
    | (.error fault, env) => (.error fault, env)
    | (.ok value, env) => if op.decides value then (.ok value, env) else right.eval env

end LoxLang
