import LoxLang.Expr

/-!
# Statements

There is no node for `for`: such a loop is a block with a `while` loop in it.
-/

namespace LoxLang

inductive Stmt where
  | expression (expr : Expr) (span : Span)
  | print (expr : Expr) (span : Span)
  | declare (name : String) (initial : Option Expr) (span : Span)
  | block (body : List Stmt) (span : Span)
  | branch (condition : Expr) (thenBranch : Stmt) (elseBranch : Option Stmt) (span : Span)
  | loop (condition : Expr) (body : Stmt) (span : Span)

inductive Stmt.Form where
  | expression
  | print
  | declare
  | block
  | branch
  | loop
deriving DecidableEq

def Stmt.Form.name : Form → String
  | expression => "Expression"
  | print => "Print"
  | declare => "Var"
  | block => "Block"
  | branch => "If"
  | loop => "While"

namespace Stmt

def span : Stmt → Span
  | expression _ span => span
  | print _ span => span
  | declare _ _ span => span
  | block _ span => span
  | branch _ _ _ span => span
  | loop _ _ span => span

def form : Stmt → Form
  | expression .. => .expression
  | print .. => .print
  | declare .. => .declare
  | block .. => .block
  | branch .. => .branch
  | loop .. => .loop

end Stmt

end LoxLang
