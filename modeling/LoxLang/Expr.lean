import LoxLang.Span
import LoxLang.Value

/-!
# Expressions

Each node carries the span of the source text that it was read from.
-/

namespace LoxLang

inductive UnaryOp where
  | negate
  | not
deriving DecidableEq

inductive BinaryOp where
  | add
  | subtract
  | multiply
  | divide
  | equal
  | notEqual
  | less
  | lessEqual
  | greater
  | greaterEqual
deriving DecidableEq

inductive LogicalOp where
  | and
  | or
deriving DecidableEq

inductive Expr where
  | literal (value : Value) (span : Span)
  | grouping (inner : Expr) (span : Span)
  | unary (op : UnaryOp) (operand : Expr) (span : Span)
  | binary (op : BinaryOp) (left right : Expr) (span : Span)
  | logical (op : LogicalOp) (left right : Expr) (span : Span)
  | reference (name : String) (span : Span)
  | assign (name : String) (value : Expr) (span : Span)

namespace Expr

def span : Expr → Span
  | literal _ span => span
  | grouping _ span => span
  | unary _ _ span => span
  | binary _ _ _ span => span
  | logical _ _ _ span => span
  | reference _ span => span
  | assign _ _ span => span

def isAssign : Expr → Bool
  | assign .. => true
  | _ => false

end Expr

end LoxLang
