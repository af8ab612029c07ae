import LoxLang.Stmt

/-!
# Trees as text

Statements and expressions in fully bracketed form. The last element of every node is its
span.
-/

namespace LoxLang

/-- The bit pattern of a double in hexadecimal; a NaN has no pattern of its own. -/
def bitsText (x : Float) : String :=
  if x.isNaN then "nan"
  else
    let digits := Nat.toDigits 16 x.toBits.toNat
    String.ofList (List.replicate (16 - digits.length) '0' ++ digits)

def Span.tree (span : Span) : String := s!"@{span.start}-{span.stop}:{span.line}"

/-- A node with the given head and elements. -/
def bracketed (head : String) (elements : List String) (span : Span) : String :=
  "(" ++ " ".intercalate (head :: elements ++ [span.tree]) ++ ")"

def UnaryOp.sign : UnaryOp → String
  | negate => "neg"
  | not => "not"

def BinaryOp.sign : BinaryOp → String
  | add => "+"
  | subtract => "-"
  | multiply => "*"
  | divide => "/"
  | equal => "=="
  | notEqual => "!="
  | less => "<"
  | lessEqual => "<="
  | greater => ">"
  | greaterEqual => ">="

def LogicalOp.sign : LogicalOp → String
  | and => "and"
  | or => "or"

namespace Expr

def tree : Expr → String
  | literal .nil span => bracketed "nil" [] span
  | literal (.bool true) span => bracketed "true" [] span
  | literal (.bool false) span => bracketed "false" [] span
  | literal (.number x) span => bracketed "num" [Decimal.text "inf" x, bitsText x] span
  | literal (.string s) span => bracketed "str" ["\"" ++ s ++ "\""] span
  | grouping inner span => bracketed "group" [inner.tree] span
  | unary op operand span => bracketed op.sign [operand.tree] span
  | binary op left right span => bracketed op.sign [left.tree, right.tree] span
  | logical op left right span => bracketed op.sign [left.tree, right.tree] span
  | reference name span => bracketed "get" [name] span
  | assign name value span => bracketed "set" [name, value.tree] span

end Expr

namespace Stmt

mutual

def tree : Stmt → String
  | expression expr span => bracketed "expr" [expr.tree] span
  | print expr span => bracketed "print" [expr.tree] span
  | declare name none span => bracketed "var" [name] span
  | declare name (some initial) span => bracketed "var" [name, initial.tree] span
  | block body span => bracketed "block" (trees body) span
  | branch condition thenBranch none span =>
    bracketed "if" [condition.tree, thenBranch.tree] span
  | branch condition thenBranch (some elseBranch) span =>
    bracketed "if" [condition.tree, thenBranch.tree, elseBranch.tree] span
  | loop condition body span => bracketed "while" [condition.tree, body.tree] span
termination_by structural stmt => stmt

def trees : List Stmt → List String
  | [] => []
  | stmt :: rest => stmt.tree :: trees rest
termination_by structural stmts => stmts

end

end Stmt

end LoxLang
